import RemyCC.State.Lifecycle

/-!
# What crash recovery does to the rows

Recovery is one map over the rows as they stood when the store was opened. The
loops visit the rows one after the other; the invariant of each is that map
applied to the rows already visited, and a visit does not change what the
successor query answers for the rows still to come.
-/

namespace RemyCC.State

open Relational Database

variable {db : Database} {now : Int}

theorem successor?_eq_some {key : Int × JobType × String} {r : JobRow}
    (h : successor? db key = some r) : r ∈ db.jobs.rows ∧ r.key = key ∧ r.status = .pending := by
  have hmem := (List.mem_insertionSort _).mp (List.mem_of_head? h)
  simpa using hmem

theorem successor?_eq_none {key : Int × JobType × String} (h : successor? db key = none) :
    ∀ r ∈ db.jobs.rows, r.key = key → r.status ≠ .pending := by
  have hnil := List.head?_eq_none_iff.mp h
  intro r hr hkey hp
  have hmem : r ∈ (db.jobs.rows.filter fun r => r.key = key ∧ r.status = .pending).insertionSort
      fun r s => r.id ≤ s.id := (List.mem_insertionSort _).mpr (by simpa using ⟨hr, hkey, hp⟩)
  rw [hnil] at hmem
  cases hmem

/-- What recovery makes of a running row. -/
def requeueEdit (base : Database) (now : Int) (r : JobRow) : JobRow :=
  match successor? base r.key with
  | some successor => transitionEdit .running .superseded now (some successor.id) r
  | none => transitionEdit .running .pending now none r

def recoverRow (base : Database) (now : Int) (r : JobRow) : JobRow :=
  match r.status with
  | .running => requeueEdit base now r
  | .cancelRequested => transitionEdit .cancelRequested .cancelled now none r
  | _ => r

@[simp]
theorem requeueEdit_id (base : Database) (r : JobRow) : (requeueEdit base now r).id = r.id := by
  unfold requeueEdit
  split <;> simp

@[simp]
theorem requeueEdit_key (base : Database) (r : JobRow) : (requeueEdit base now r).key = r.key := by
  unfold requeueEdit
  split <;> simp

@[simp]
theorem recoverRow_id (base : Database) (r : JobRow) : (recoverRow base now r).id = r.id := by
  unfold recoverRow
  split <;> simp

@[simp]
theorem recoverRow_key (base : Database) (r : JobRow) : (recoverRow base now r).key = r.key := by
  unfold recoverRow
  split <;> simp

/-- The running rows outside `waiting` have been visited. -/
def visitRow (base : Database) (now : Int) (waiting : List Int) (r : JobRow) : JobRow :=
  if r.status = .running ∧ r.id ∉ waiting then requeueEdit base now r else r

@[simp]
theorem visitRow_id (base : Database) (waiting : List Int) (r : JobRow) :
    (visitRow base now waiting r).id = r.id := by
  unfold visitRow
  split <;> simp

@[simp]
theorem visitRow_key (base : Database) (waiting : List Int) (r : JobRow) :
    (visitRow base now waiting r).key = r.key := by
  unfold visitRow
  split <;> simp

theorem successor?_visited {base : Database} {waiting : List Int}
    (hrows : db.jobs.rows = base.jobs.rows.map (visitRow base now waiting))
    {r : JobRow} (hr : r ∈ base.jobs.rows) (hrunning : r.status = .running)
    (hwaiting : r.id ∈ waiting) : successor? db r.key = successor? base r.key := by
  have hkeep : ∀ s ∈ base.jobs.rows, s.key = r.key → visitRow base now waiting s = s := by
    intro s hs hkey
    unfold visitRow
    split
    · rename_i h
      have heq := base.executing_ext hs hr (.inl h.1) (.inl hrunning) hkey
      rw [heq] at h
      exact absurd hwaiting h.2
    · rfl
  have hfilter : db.jobs.rows.filter (fun s => s.key = r.key ∧ s.status = .pending) =
      base.jobs.rows.filter (fun s => s.key = r.key ∧ s.status = .pending) := by
    rw [hrows, List.filter_map]
    have hcongr : base.jobs.rows.filter ((fun s => decide (s.key = r.key ∧ s.status = .pending)) ∘
        visitRow base now waiting) =
        base.jobs.rows.filter (fun s => s.key = r.key ∧ s.status = .pending) := by
      refine List.filter_congr fun s hs => ?_
      by_cases hkey : s.key = r.key
      · simp [hkeep s hs hkey]
      · simp [hkey]
    rw [hcongr]
    conv_rhs => rw [← List.map_id (base.jobs.rows.filter _)]
    refine List.map_congr_left fun s hs => ?_
    obtain ⟨hs, hsel⟩ := List.mem_filter.mp hs
    simp only [decide_eq_true_eq] at hsel
    exact hkeep s hs hsel.1
  unfold successor?
  rw [hfilter]

theorem recoverRunning_yields (now : Int) (base : Database) (todo : List JobRow)
    (hmem : ∀ r ∈ todo, r ∈ base.jobs.rows ∧ r.status = .running)
    (hnodup : (todo.map (·.id)).Nodup) (db : Database) (report : RecoveryReport)
    (hrows : db.jobs.rows = base.jobs.rows.map (visitRow base now (todo.map (·.id))))
    (hrest : SameRest base db) (err : StateError → Prop) :
    Yields (recoverRunning now todo (db, report))
      (fun u => u.1.jobs.rows = base.jobs.rows.map (visitRow base now []) ∧ SameRest base u.1)
      err := by
  induction todo generalizing db report with
  | nil => exact ⟨hrows, hrest⟩
  | cons r rest ih =>
    obtain ⟨hr, hrunning⟩ := hmem r List.mem_cons_self
    obtain ⟨hnotin, hnodup⟩ := List.nodup_cons.mp hnodup
    have hmem' : ∀ s ∈ rest, s ∈ base.jobs.rows ∧ s.status = .running :=
      fun s hs => hmem s (List.mem_cons_of_mem _ hs)
    have hself : visitRow base now ((r :: rest).map (·.id)) r = r := by simp [visitRow]
    have hrdb : r ∈ db.jobs.rows := hrows ▸ List.mem_map.mpr ⟨r, hr, hself⟩
    have hsucc := successor?_visited hrows hr hrunning (by simp)
    -- Visiting `r` is the transition of its row, whatever its target.
    have hvisit : ∀ target supersededBy,
        requeueEdit base now r = transitionEdit .running target now supersededBy r →
        base.jobs.rows.map (visitRow base now (rest.map (·.id))) =
          db.jobs.rows.map (transitionRow r.id .running target now supersededBy) := by
      intro target supersededBy hedit
      rw [hrows, List.map_map]
      refine List.map_congr_left fun s hs => ?_
      by_cases hid : s.id = r.id
      · rw [base.job_ext hs hr hid]
        simp only [Function.comp, hself]
        simp [visitRow, transitionRow, Table.apply, hrunning, hnotin, hedit]
      · have hvis : visitRow base now ((r :: rest).map (·.id)) s =
            visitRow base now (rest.map (·.id)) s := by
          simp [visitRow, hid]
        rw [Function.comp, hvis]
        simp [transitionRow, Table.apply, hid]
    unfold recoverRunning
    cases hfind : successor? db r.key with
    | some successor =>
      obtain ⟨hsmem, -, -⟩ := successor?_eq_some hfind
      have hedit : requeueEdit base now r =
          transitionEdit .running .superseded now (some successor.id) r := by
        simp [requeueEdit, ← hsucc, hfind]
      have hok : EditOk db r (transitionEdit .running .superseded now (some successor.id) r) :=
        transitionEdit_ok hrdb hrunning .supersede (fun h => by cases h) (fun h => by cases h)
          (fun _ => ⟨successor.id, rfl, successor, hsmem, rfl⟩)
      refine Yields.bind (transitionJob_yields hrdb hrunning .supersede hok err) ?_
      rintro ⟨db', changed⟩ - ⟨hrows', -, hrest'⟩
      exact ih hmem' hnodup db' _ (hrows'.trans (hvisit _ _ hedit).symm) (hrest.trans hrest')
    | none =>
      have hedit : requeueEdit base now r = transitionEdit .running .pending now none r := by
        simp [requeueEdit, ← hsucc, hfind]
      have hok : EditOk db r (transitionEdit .running .pending now none r) :=
        transitionEdit_ok hrdb hrunning .requeue
          (fun _ s hs hkey => successor?_eq_none hfind s hs hkey) (fun h => by cases h)
          (fun h => by cases h)
      refine Yields.bind (transitionJob_yields hrdb hrunning .requeue hok err) ?_
      rintro ⟨db', changed⟩ - ⟨hrows', -, hrest'⟩
      exact ih hmem' hnodup db' _ (hrows'.trans (hvisit _ _ hedit).symm) (hrest.trans hrest')

/-- The cancelled rows outside `waiting` have been visited. -/
def confirmRow (now : Int) (waiting : List Int) (r : JobRow) : JobRow :=
  if r.status = .cancelRequested ∧ r.id ∉ waiting then
    transitionEdit .cancelRequested .cancelled now none r
  else r

@[simp]
theorem confirmRow_id (waiting : List Int) (r : JobRow) :
    (confirmRow now waiting r).id = r.id := by
  unfold confirmRow
  split <;> simp

theorem recoverCancelled_yields (now : Int) (base : Database) (todo : List JobRow)
    (hmem : ∀ r ∈ todo, r ∈ base.jobs.rows ∧ r.status = .cancelRequested)
    (hnodup : (todo.map (·.id)).Nodup) (db : Database) (report : RecoveryReport)
    (hrows : db.jobs.rows = base.jobs.rows.map (confirmRow now (todo.map (·.id))))
    (hrest : SameRest base db) (err : StateError → Prop) :
    Yields (recoverCancelled now todo (db, report))
      (fun u => u.1.jobs.rows = base.jobs.rows.map (confirmRow now []) ∧ SameRest base u.1)
      err := by
  induction todo generalizing db report with
  | nil => exact ⟨hrows, hrest⟩
  | cons r rest ih =>
    obtain ⟨hr, hrequested⟩ := hmem r List.mem_cons_self
    obtain ⟨hnotin, hnodup⟩ := List.nodup_cons.mp hnodup
    have hmem' : ∀ s ∈ rest, s ∈ base.jobs.rows ∧ s.status = .cancelRequested :=
      fun s hs => hmem s (List.mem_cons_of_mem _ hs)
    have hself : confirmRow now ((r :: rest).map (·.id)) r = r := by simp [confirmRow]
    have hrdb : r ∈ db.jobs.rows := hrows ▸ List.mem_map.mpr ⟨r, hr, hself⟩
    have hok : EditOk db r (transitionEdit .cancelRequested .cancelled now none r) :=
      transitionEdit_ok hrdb hrequested .confirmCancel (fun h => by cases h) (fun h => by cases h)
        (fun h => by cases h)
    unfold recoverCancelled
    refine Yields.bind (transitionJob_yields hrdb hrequested .confirmCancel hok err) ?_
    rintro ⟨db', changed⟩ - ⟨hrows', -, hrest'⟩
    refine ih hmem' hnodup db' _ (hrows'.trans ?_) (hrest.trans hrest')
    rw [hrows, List.map_map]
    refine List.map_congr_left fun s hs => ?_
    by_cases hid : s.id = r.id
    · rw [base.job_ext hs hr hid]
      simp only [Function.comp, hself]
      simp [confirmRow, transitionRow, Table.apply, hrequested, hnotin]
    · have hvis : confirmRow now ((r :: rest).map (·.id)) s =
          confirmRow now (rest.map (·.id)) s := by
        simp [confirmRow, hid]
      rw [Function.comp, hvis]
      simp [transitionRow, Table.apply, hid]

theorem nodup_ids (p : JobRow → Bool) : ((db.jobs.rows.filter p).map (·.id)).Nodup := by
  refine List.Pairwise.map _ ?_ (db.jobs.distinct.filter p)
  intro r s hn hid
  exact hn (.inl hid)

theorem recover_rows_eq {base : Database} {r : JobRow} :
    confirmRow now [] (visitRow base now [] r) = recoverRow base now r := by
  unfold visitRow recoverRow
  by_cases hrunning : r.status = .running
  · have hstatus : (requeueEdit base now r).status ≠ .cancelRequested := by
      unfold requeueEdit
      split <;> simp [transitionEdit]
    simp [hrunning, confirmRow, hstatus]
  · by_cases hrequested : r.status = .cancelRequested
    · simp [confirmRow, hrequested]
    · simp [hrunning, confirmRow, hrequested]

/-- Recovery succeeds whenever the clock can be read. -/
theorem recover_yields :
    Yields (recover now db)
      (fun u => Readable now ∧ u.1.jobs.rows = db.jobs.rows.map (recoverRow db now) ∧
        SameRest db u.1)
      (fun e => NotConstraint e ∧ ¬ Readable now) := by
  unfold recover
  refine Yields.bind (nowMillis_yields now) ?_
  rintro _ - ⟨rfl, hnow⟩
  refine Yields.bind (recoverRunning_yields now db _ ?_ (nodup_ids _) db _ ?_
    (SameRest.refl db) _) ?_
  · intro r hr
    simpa using hr
  · refine (List.map_id' _).symm.trans (List.map_congr_left fun r hr => ?_)
    unfold visitRow
    split
    · rename_i h
      refine absurd (List.mem_map.mpr ⟨r, ?_, rfl⟩) h.2
      simpa using ⟨hr, h.1⟩
    · rfl
  · rintro ⟨mid, report⟩ - ⟨hrows, hrest⟩
    simp only at hrows hrest
    refine (recoverCancelled_yields now mid _ ?_ (nodup_ids _) mid report ?_
      (SameRest.refl mid) _).mono ?_ (fun _ h => h)
    · intro r hr
      simpa using hr
    · refine (List.map_id' _).symm.trans (List.map_congr_left fun r hr => ?_)
      unfold confirmRow
      split
      · rename_i h
        refine absurd (List.mem_map.mpr ⟨r, ?_, rfl⟩) h.2
        simpa using ⟨hr, h.1⟩
      · rfl
    · rintro u - ⟨hrows', hrest'⟩
      refine ⟨hnow, ?_, hrest.trans hrest'⟩
      rw [hrows', hrows, List.map_map]
      exact List.map_congr_left fun r _ => recover_rows_eq

end RemyCC.State
