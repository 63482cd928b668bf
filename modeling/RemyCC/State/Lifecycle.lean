import RemyCC.State.Submission

/-!
# What the operations on existing jobs do to the rows

Claiming, progress, completion, cancellation and crash recovery. Recovery is
stated as one map over the rows as they stood when the store was opened; its
loop invariant is that map applied to the rows already visited.
-/

namespace RemyCC.State

open Relational Database

theorem notConstraint_invalidTransition (source target : JobStatus) :
    NotConstraint (.invalidTransition source target) :=
  fun c => by simp [StateError.constraint]

theorem notConstraint_notFound (jobId : Int) : NotConstraint (.notFound jobId) :=
  fun c => by simp [StateError.constraint]

section Promote

variable {db : Database} {jobId : Int} {priority : JobPriority}

def promoteRow (jobId : Int) (priority : JobPriority) (r : JobRow) : JobRow :=
  Table.apply (fun r => r.id = jobId ∧ r.status = .pending ∧ r.priority.asDb < priority.asDb)
    (fun r => { r with priority := r.priority.max priority }) r

structure Promoted (jobId : Int) (priority : JobPriority) (db : Database) (r : JobRow)
    (db' : Database) (result : PromoteResult) : Prop where
  mem : r ∈ db.jobs.rows
  id : r.id = jobId
  rows : db'.jobs.rows = db.jobs.rows.map (promoteRow jobId priority)
  job : ∃ p, db'.project? r.projectId = some p ∧
    result.job = (promoteRow jobId priority r).toJob p
  rest : SameRest db db'

@[simp]
theorem promoteRow_id (r : JobRow) : (promoteRow jobId priority r).id = r.id := by
  unfold promoteRow Table.apply
  split <;> rfl

@[simp]
theorem promoteRow_projectId (r : JobRow) :
    (promoteRow jobId priority r).projectId = r.projectId := by
  unfold promoteRow Table.apply
  split <;> rfl

theorem promote_yields :
    Yields (promote jobId priority db) (fun r => ∃ row, Promoted jobId priority db row r.1 r.2)
      (fun e => e = .notFound jobId) := by
  unfold promote
  refine Yields.bind (updateJob_yields db jobId (fun _ h => h.1) ?_ _) ?_
  · exact fun r hr _ => editOk_priority hr _
  · rintro ⟨db', count⟩ - ⟨hrows, -, hrest⟩
    simp only at hrows hrest
    refine Yields.bind ((loadJob_yields jobId).mono (fun _ _ h => h) (fun _ h => h.1)) ?_
    rintro _ - ⟨r', hr', hid, p, hp, rfl⟩
    rw [hrows] at hr'
    obtain ⟨r, hr, rfl⟩ := List.mem_map.mp hr'
    have hid' : r.id = jobId := (promoteRow_id r).symm.trans hid
    exact ⟨r, hr, hid', hrows, ⟨p, (promoteRow_projectId r) ▸ hp, rfl⟩, hrest⟩

end Promote

section Claim

variable {db : Database} {now : Int} {provider : String}

theorem nextPending?_eq_some {r : JobRow} (h : nextPending? db = some r) :
    r ∈ db.jobs.rows ∧ claimable db r := by
  have hmem := (List.mem_insertionSort _).mp (List.mem_of_head? h)
  simpa using hmem

theorem nextPending?_eq_none (h : nextPending? db = none) : ∀ r ∈ db.jobs.rows, ¬ claimable db r := by
  have hnil := List.head?_eq_none_iff.mp h
  intro r hr hclaim
  have hmem : r ∈ (db.jobs.rows.filter (claimable db)).insertionSort claimOrder :=
    (List.mem_insertionSort _).mpr (by simpa using ⟨hr, hclaim⟩)
  rw [hnil] at hmem
  cases hmem

/-- A row as it is claimed: running, with its progress at the start. -/
def startRow (now : Int) (provider : String) (jobId : Int) (r : JobRow) : JobRow :=
  Table.apply (·.id = jobId)
    (fun r => { r with status := .running, startedAt := some now, provider := provider,
                       progressCurrent := some 0, progressTotal := some 3,
                       progressMessage := some "runtime_validation" }) r

inductive Claimed (now : Int) (provider : String) (db db' : Database) (result : Option Job) : Prop
  | idle (empty : nextPending? db = none) (same : db' = db) (nothing : result = none)
  | started (next : JobRow) (found : nextPending? db = some next) (readable : Readable now)
      (rows : db'.jobs.rows = db.jobs.rows.map (startRow now provider next.id))
      (p : ProjectRow) (project : db'.project? next.projectId = some p)
      (job : result = some ((startRow now provider next.id next).toJob p)) (rest : SameRest db db')

theorem claimNextPending_yields :
    Yields (claimNextPending now provider db)
      (fun r => provider = providerRust ∧ Claimed now provider db r.1 r.2)
      (fun e => NotConstraint e ∧ (provider = providerRust → ¬ Readable now)) := by
  unfold claimNextPending
  refine Yields.ite ?_ ?_
  · exact fun h => ⟨notConstraint_invalidInput _, fun hp => absurd hp h⟩
  intro hprovider
  have hprovider : provider = providerRust := not_not.mp hprovider
  refine Yields.bind ((nowMillis_yields now).mono (fun _ _ h => h)
    (fun _ h => ⟨h.1, fun _ => h.2⟩)) ?_
  rintro _ - ⟨rfl, hnow⟩
  cases hnext : nextPending? db with
  | none => exact ⟨hprovider, .idle hnext rfl rfl⟩
  | some next =>
    obtain ⟨hmem, hpending, hfree⟩ := nextPending?_eq_some hnext
    have hok : EditOk db next (transitionEdit .pending .running now none next) :=
      transitionEdit_ok hmem hpending .start (fun h => by cases h)
        (fun _ s hs hkey he => hfree ⟨s, hs, hkey, he⟩) (fun h => by cases h)
    refine Yields.bind (transitionJob_yields hmem hpending .start hok _) ?_
    rintro ⟨mid, changed⟩ - ⟨hrows, hchanged, hrest⟩
    simp only at hrows hchanged hrest
    subst hchanged
    have hmid : transitionEdit .pending .running now none next ∈ mid.jobs.rows := by
      rw [hrows]
      refine List.mem_map.mpr ⟨next, hmem, ?_⟩
      simp [transitionRow, Table.apply, hpending]
    simp only [if_true]
    refine Yields.bind (updateJob_yields mid next.id (fun _ h => h) ?_ _) ?_
    · intro r hr hid
      rw [mid.job_ext hr hmid (hid.trans (transitionEdit_id next).symm)]
      obtain ⟨-, hcreated, -, hboth, htime, hpayload, hsuperseded⟩ := mid.check hmid
      refine ⟨rfl, rfl, ⟨.inr hprovider, hcreated, ?_, hboth, htime, hpayload, hsuperseded⟩,
        fun h => .inl h, fun h => .inl h, fun _ h => .inl h⟩
      simp [JobRow.ProgressCheck]
    · rintro ⟨db', count⟩ - ⟨hrows', -, hrest'⟩
      simp only at hrows' hrest'
      have hmap : db'.jobs.rows = db.jobs.rows.map (startRow now provider next.id) := by
        rw [hrows', hrows, List.map_map]
        refine List.map_congr_left fun r hr => ?_
        by_cases hid : r.id = next.id
        · rw [db.job_ext hr hmem hid]
          simp [transitionRow, startRow, Table.apply, hpending, transitionEdit]
        · simp [transitionRow, startRow, Table.apply, hid]
      have hmem' : startRow now provider next.id next ∈ db'.jobs.rows :=
        hmap ▸ List.mem_map.mpr ⟨next, hmem, rfl⟩
      have hid : (startRow now provider next.id next).id = next.id := by
        simp [startRow, Table.apply]
      have hpid : (startRow now provider next.id next).projectId = next.projectId := by
        simp [startRow, Table.apply]
      have hload := loaded_yields hmem' (fun job => (db', some job))
        (fun e => NotConstraint e ∧ (provider = providerRust → ¬ Readable now))
      rw [hid] at hload
      refine hload.mono ?_ (fun _ h => h)
      rintro _ - ⟨p, hp, rfl⟩
      exact ⟨hprovider, .started next hnext hnow hmap p (hpid ▸ hp) rfl (hrest.trans hrest')⟩

end Claim

section Progress

variable {db : Database} {jobId : Int} {update : ProgressUpdate}

def ProgressUpdate.Valid (u : ProgressUpdate) : Prop := 0 ≤ u.current ∧ u.current ≤ u.total

def accepts (jobId : Int) (update : ProgressUpdate) (r : JobRow) : Prop :=
  r.id = jobId ∧ r.status.executing ∧ ∀ current ∈ r.progressCurrent, current ≤ update.current

instance : DecidablePred (accepts jobId update) := fun _ => inferInstanceAs (Decidable (_ ∧ _))

def progressRow (jobId : Int) (update : ProgressUpdate) (r : JobRow) : JobRow :=
  Table.apply (accepts jobId update)
    (fun r => { r with progressCurrent := some update.current,
                       progressTotal := some update.total,
                       progressMessage := some update.message }) r

structure Progressed (jobId : Int) (update : ProgressUpdate) (db : Database) (r : JobRow)
    (db' : Database) (job : Job) : Prop where
  mem : r ∈ db.jobs.rows
  accepted : accepts jobId update r
  rows : db'.jobs.rows = db.jobs.rows.map (progressRow jobId update)
  job : ∃ p, db'.project? r.projectId = some p ∧ job = (progressRow jobId update r).toJob p
  rest : SameRest db db'

theorem updateProgress_yields :
    Yields (updateProgress jobId update db)
      (fun u => ∃ r, Progressed jobId update db r u.1 u.2)
      (fun e => NotConstraint e ∧
        (update.Valid → (∃ s, e = .invalidTransition s s) ∨ e = .notFound jobId)) := by
  unfold updateProgress
  refine Yields.ite ?_ ?_
  · rintro h
    refine ⟨notConstraint_invalidInput _, fun hv => ?_⟩
    obtain ⟨h0, hle⟩ := hv
    omega
  intro h
  simp only [not_or, not_lt] at h
  obtain ⟨h0, ht, hle⟩ := h
  refine Yields.bind (updateJob_yields db jobId (fun _ h => h.1) ?_ _) ?_
  · rintro r hr -
    obtain ⟨hprovider, hcreated, -, hboth, htime, hpayload, hsuperseded⟩ := db.check hr
    refine ⟨rfl, rfl, ⟨hprovider, hcreated, ?_, hboth, htime, hpayload, hsuperseded⟩,
      fun h => .inl h, fun h => .inl h, fun _ h => .inl h⟩
    simp [JobRow.ProgressCheck, h0, ht, hle]
  · rintro ⟨db', count⟩ - ⟨hrows, hcount, hrest⟩
    simp only at hrows hcount hrest
    refine Yields.ite ?_ ?_
    · intro hone
      have hpos : 0 < db.jobs.rows.countP (accepts jobId update ·) := by
        have heq : count = db.jobs.rows.countP (accepts jobId update ·) := hcount
        omega
      obtain ⟨r, hr, hacc⟩ := List.countP_pos_iff.mp hpos
      have hacc : accepts jobId update r := by simpa using hacc
      have hrow : progressRow jobId update r = { r with
          progressCurrent := some update.current, progressTotal := some update.total,
          progressMessage := some update.message } := if_pos hacc
      have hmem' : progressRow jobId update r ∈ db'.jobs.rows :=
        hrows ▸ List.mem_map.mpr ⟨r, hr, rfl⟩
      have hload := loaded_yields hmem' (fun job => (db', job)) (fun e => NotConstraint e ∧
        (update.Valid → (∃ s, e = .invalidTransition s s) ∨ e = .notFound jobId))
      have hid : (progressRow jobId update r).id = jobId := by rw [hrow]; exact hacc.1
      have hpid : (progressRow jobId update r).projectId = r.projectId := by rw [hrow]
      rw [hid] at hload
      refine hload.mono ?_ (fun _ h => h)
      rintro _ - ⟨p, hp, rfl⟩
      exact ⟨r, hr, hacc, hrows, ⟨p, hpid ▸ hp, rfl⟩, hrest⟩
    · intro _
      refine Yields.bind ((loadJob_yields jobId).mono (fun _ _ h => h) ?_) ?_
      · rintro _ ⟨rfl, -⟩
        exact ⟨notConstraint_notFound _, fun _ => .inr rfl⟩
      · intro job _ _
        exact ⟨notConstraint_invalidTransition _ _, fun _ => .inl ⟨job.status, rfl⟩⟩

end Progress

section Complete

variable {db : Database} {now jobId : Int} {completion : Completion}

def completeRow (now jobId : Int) (completion : Completion) (r : JobRow) : JobRow :=
  Table.apply (fun r => r.id = jobId ∧ r.status = .running)
    (fun r => { r with status := completion.status, progressCurrent := some 3,
                       progressTotal := some 3, progressMessage := some "finalizing",
                       result := completion.result, error := completion.error,
                       finishedAt := some now }) r

structure Completed (now jobId : Int) (completion : Completion) (db : Database) (r : JobRow)
    (db' : Database) (job : Job) : Prop where
  mem : r ∈ db.jobs.rows
  id : r.id = jobId
  running : r.status = .running
  readable : Readable now
  rows : db'.jobs.rows = db.jobs.rows.map (completeRow now jobId completion)
  job : ∃ p, db'.project? r.projectId = some p ∧ job = (completeRow now jobId completion r).toJob p
  rest : SameRest db db'

theorem completed_check {r : JobRow} (hr : r.Check) (hrunning : r.status = .running) :
    JobRow.Check { r with
      status := completion.status, progressCurrent := some 3, progressTotal := some 3,
      progressMessage := some "finalizing", result := completion.result,
      error := completion.error, finishedAt := some now } := by
  obtain ⟨hprovider, hcreated, -, -, htime, -, hsuperseded⟩ := hr
  unfold JobRow.TimeCheck at htime
  unfold JobRow.SupersededCheck at hsuperseded
  cases completion <;>
    simp_all [JobRow.Check, JobRow.ProgressCheck, JobRow.TimeCheck, JobRow.PayloadCheck,
      JobRow.SupersededCheck, Completion.status, Completion.result, Completion.error,
      JobStatus.executing]

theorem completion_terminal (c : Completion) : c.status ≠ .pending ∧ ¬ c.status.executing := by
  cases c <;> simp [Completion.status, JobStatus.executing]

theorem complete_yields :
    Yields (complete now jobId completion db)
      (fun u => ∃ r, Completed now jobId completion db r u.1 u.2)
      (fun e => NotConstraint e ∧
        (Readable now → ∀ r ∈ db.jobs.rows, r.id = jobId → r.status ≠ .running)) := by
  unfold complete
  refine Yields.bind ((nowMillis_yields now).mono (fun _ _ h => h)
    (fun _ h => ⟨h.1, fun hnow => absurd hnow h.2⟩)) ?_
  rintro _ - ⟨rfl, hnow⟩
  refine Yields.bind ((loadJob_yields jobId).mono (fun _ _ h => h) ?_) ?_
  · rintro _ ⟨rfl, hnone⟩
    exact ⟨notConstraint_notFound _, fun _ r hr hid => absurd hid (hnone r hr)⟩
  rintro _ - ⟨r, hr, hid, p, hp, rfl⟩
  refine Yields.ite ?_ ?_
  · intro hstatus
    refine ⟨notConstraint_invalidTransition _ _, fun _ s hs hsid => ?_⟩
    rw [db.job_ext hs hr (hsid.trans hid.symm)]
    exact hstatus
  intro hstatus
  have hrunning : r.status = .running := not_not.mp hstatus
  refine Yields.bind (updateJob_yields db jobId (fun _ h => h.1) ?_ _) ?_
  · rintro s hs ⟨hsid, hsr⟩
    refine ⟨rfl, rfl, completed_check (db.check hs) hsr, ?_, ?_, fun _ h => .inl h⟩
    · exact fun h => absurd h (completion_terminal completion).1
    · exact fun h => absurd h (completion_terminal completion).2
  · rintro ⟨db', count⟩ - ⟨hrows, hcount, hrest⟩
    simp only at hrows hcount hrest
    have hone : count = 1 := by
      rw [show count = _ from hcount]
      exact countP_eq_one hr (fun s hs => hs.1.trans hid.symm) ⟨hid, hrunning⟩
    subst hone
    simp only [if_true]
    have hmem' : completeRow now jobId completion r ∈ db'.jobs.rows :=
      hrows ▸ List.mem_map.mpr ⟨r, hr, rfl⟩
    have hrow : completeRow now jobId completion r = { r with
        status := completion.status, progressCurrent := some 3, progressTotal := some 3,
        progressMessage := some "finalizing", result := completion.result,
        error := completion.error, finishedAt := some now } := if_pos ⟨hid, hrunning⟩
    have hload := loaded_yields hmem' (fun job => (db', job)) (fun e => NotConstraint e ∧
      (Readable now → ∀ r ∈ db.jobs.rows, r.id = jobId → r.status ≠ .running))
    have hid' : (completeRow now jobId completion r).id = jobId := by rw [hrow]; exact hid
    have hpid' : (completeRow now jobId completion r).projectId = r.projectId := by rw [hrow]
    rw [hid'] at hload
    refine hload.mono ?_ (fun _ h => h)
    rintro _ - ⟨q, hq, rfl⟩
    exact ⟨r, hr, hid, hrunning, hnow, hrows, ⟨q, hpid' ▸ hq, rfl⟩, hrest⟩

end Complete

section Cancel

variable {db : Database} {now jobId : Int}

structure Confirmed (now jobId : Int) (db : Database) (r : JobRow) (db' : Database)
    (job : Job) : Prop where
  mem : r ∈ db.jobs.rows
  id : r.id = jobId
  requested : r.status = .cancelRequested
  readable : Readable now
  rows : db'.jobs.rows =
    db.jobs.rows.map (transitionRow jobId .cancelRequested .cancelled now none)
  job : ∃ p, db'.project? r.projectId = some p ∧
    job = (transitionRow jobId .cancelRequested .cancelled now none r).toJob p
  rest : SameRest db db'

@[simp]
theorem transitionRow_id (source target : JobStatus) (supersededBy : Option Int) (r : JobRow) :
    (transitionRow jobId source target now supersededBy r).id = r.id := by
  unfold transitionRow Table.apply
  split <;> simp

theorem transitionRow_projectId (source target : JobStatus) (supersededBy : Option Int)
    (r : JobRow) : (transitionRow jobId source target now supersededBy r).projectId = r.projectId := by
  unfold transitionRow Table.apply
  split
  · exact congrArg Prod.fst (transitionEdit_key r)
  · rfl

/-- The transition of a loaded row, and the row it answers with. -/
theorem transition_load_yields {r : JobRow} (hr : r ∈ db.jobs.rows) {source target : JobStatus}
    (hstatus : r.status = source) (h : PlainTransition source target)
    (hok : EditOk db r (transitionEdit source target now none r)) {β : Type}
    (result : Bool → Job → β) (err : StateError → Prop) :
    Yields (do
        let (db, changed) ← transitionJob db r.id source target now none
        let job ← loadJob db r.id
        .ok (db, result changed job))
      (fun u => u.1.jobs.rows = db.jobs.rows.map (transitionRow r.id source target now none) ∧
        (∃ p, u.1.project? r.projectId = some p ∧
          u.2 = result true ((transitionRow r.id source target now none r).toJob p)) ∧
        SameRest db u.1) err := by
  refine Yields.bind (transitionJob_yields hr hstatus h hok err) ?_
  rintro ⟨db', changed⟩ - ⟨hrows, hchanged, hrest⟩
  simp only at hrows hchanged hrest
  subst hchanged
  have hmem' : transitionRow r.id source target now none r ∈ db'.jobs.rows :=
    hrows ▸ List.mem_map.mpr ⟨r, hr, rfl⟩
  have hload := loaded_yields hmem' (fun job => (db', result true job)) err
  rw [transitionRow_id, transitionRow_projectId] at hload
  refine hload.mono ?_ (fun _ h => h)
  rintro _ - ⟨p, hp, rfl⟩
  exact ⟨hrows, ⟨p, hp, rfl⟩, hrest⟩

theorem confirmCancelled_yields :
    Yields (confirmCancelled now jobId db) (fun u => ∃ r, Confirmed now jobId db r u.1 u.2)
      (fun e => NotConstraint e ∧
        (Readable now → ∀ r ∈ db.jobs.rows, r.id = jobId → r.status ≠ .cancelRequested)) := by
  unfold confirmCancelled
  refine Yields.bind ((nowMillis_yields now).mono (fun _ _ h => h)
    (fun _ h => ⟨h.1, fun hnow => absurd hnow h.2⟩)) ?_
  rintro _ - ⟨rfl, hnow⟩
  refine Yields.bind ((loadJob_yields jobId).mono (fun _ _ h => h) ?_) ?_
  · rintro _ ⟨rfl, hnone⟩
    exact ⟨notConstraint_notFound _, fun _ r hr hid => absurd hid (hnone r hr)⟩
  rintro _ - ⟨r, hr, rfl, p, hp, rfl⟩
  refine Yields.ite ?_ ?_
  · intro hstatus
    refine ⟨notConstraint_invalidTransition _ _, fun _ s hs hsid => ?_⟩
    rw [db.job_ext hs hr hsid]
    exact hstatus
  intro hstatus
  have hrequested : r.status = .cancelRequested := not_not.mp hstatus
  refine (transition_load_yields hr hrequested .confirmCancel (transitionEdit_ok hr hrequested
    .confirmCancel (fun h => by cases h) (fun h => by cases h) (fun h => by cases h))
    (fun _ job => job) _).mono ?_ (fun _ h => h)
  rintro ⟨db', job⟩ - ⟨hrows, hjob, hrest⟩
  exact ⟨r, hr, rfl, hrequested, hnow, hrows, hjob, hrest⟩

def cancelEdit (now : Int) (r : JobRow) : JobRow :=
  match r.status with
  | .pending => transitionEdit .pending .cancelled now none r
  | .running => transitionEdit .running .cancelRequested now none r
  | _ => r

def cancelRow (now jobId : Int) (r : JobRow) : JobRow :=
  Table.apply (·.id = jobId) (cancelEdit now) r

def JobStatus.cancellable (s : JobStatus) : Prop := s = .pending ∨ s = .running

instance : DecidablePred JobStatus.cancellable := fun s => inferInstanceAs (Decidable (s = _ ∨ s = _))

structure Cancelled (now jobId : Int) (db : Database) (r : JobRow) (db' : Database)
    (result : CancelResult) : Prop where
  mem : r ∈ db.jobs.rows
  id : r.id = jobId
  status : r.status.cancellable ∨ r.status = .cancelRequested ∨ r.status = .cancelled
  rows : db'.jobs.rows = db.jobs.rows.map (cancelRow now jobId)
  job : ∃ p, db'.project? r.projectId = some p ∧ result.job = (cancelRow now jobId r).toJob p
  changed : result.changed = decide r.status.cancellable
  rest : SameRest db db'

theorem cancelRow_eq_transitionRow {r : JobRow} (hr : r ∈ db.jobs.rows) {source target : JobStatus}
    (hstatus : r.status = source) (hedit : cancelEdit now r = transitionEdit source target now none r)
    {s : JobRow} (hs : s ∈ db.jobs.rows) :
    transitionRow r.id source target now none s = cancelRow now r.id s := by
  by_cases hid : s.id = r.id
  · rw [db.job_ext hs hr hid]
    simp [transitionRow, cancelRow, Table.apply, hstatus, hedit]
  · simp [transitionRow, cancelRow, Table.apply, hid]

theorem cancelRow_eq_self {r : JobRow} (hr : r ∈ db.jobs.rows) (hedit : cancelEdit now r = r)
    {s : JobRow} (hs : s ∈ db.jobs.rows) : cancelRow now r.id s = s := by
  by_cases hid : s.id = r.id
  · rw [db.job_ext hs hr hid]
    simp [cancelRow, Table.apply, hedit]
  · simp [cancelRow, Table.apply, hid]

theorem cancel_yields :
    Yields (cancel now jobId db) (fun u => ∃ r, Cancelled now jobId db r u.1 u.2)
      NotConstraint := by
  unfold cancel
  refine Yields.bind ((nowMillis_yields now).mono (fun _ _ h => h) (fun _ h => h.1)) ?_
  rintro _ - ⟨rfl, hnow⟩
  refine Yields.bind ((loadJob_yields jobId).mono (fun _ _ h => h) ?_) ?_
  · rintro _ ⟨rfl, -⟩
    exact notConstraint_notFound _
  rintro _ - ⟨r, hr, rfl, p, hp, rfl⟩
  have hkept : cancelEdit now r = r →
      (r.status = .cancelRequested ∨ r.status = .cancelled) →
      Yields (do let job ← loadJob db r.id; .ok (db, CancelResult.mk job false))
        (fun u => ∃ s, Cancelled now r.id db s u.1 u.2) NotConstraint := by
    intro hedit hstatus
    refine (loaded_yields hr _ _).mono ?_ (fun _ h => h)
    rintro _ - ⟨q, hq, rfl⟩
    have hrow := cancelRow_eq_self hr hedit hr
    refine ⟨r, hr, rfl, .inr hstatus, ?_, ⟨q, hq, by rw [hrow]⟩, ?_, SameRest.refl db⟩
    · exact (List.map_id' _).symm.trans
        (List.map_congr_left fun s hs => (cancelRow_eq_self hr hedit hs).symm)
    · rcases hstatus with h | h <;> simp [h, JobStatus.cancellable]
  have hmoved : ∀ target, PlainTransition r.status target → r.status.cancellable →
      EditOk db r (transitionEdit r.status target now none r) →
      cancelEdit now r = transitionEdit r.status target now none r →
      Yields (do
          let (db, changed) ← transitionJob db r.id r.status target now none
          let job ← loadJob db r.id
          .ok (db, CancelResult.mk job changed))
        (fun u => ∃ s, Cancelled now r.id db s u.1 u.2) NotConstraint := by
    intro target hplain hcancellable hok hedit
    refine (transition_load_yields hr rfl hplain hok (fun changed job => CancelResult.mk job changed)
      _).mono ?_ (fun _ h => h)
    rintro ⟨db', result⟩ - ⟨hrows, ⟨q, hq, hresult⟩, hrest⟩
    simp only at hrows hq hresult hrest
    have hrow := cancelRow_eq_transitionRow hr rfl hedit hr
    refine ⟨r, hr, rfl, .inl hcancellable, ?_, ⟨q, hq, ?_⟩, ?_, hrest⟩
    · exact hrows.trans (List.map_congr_left fun s hs => cancelRow_eq_transitionRow hr rfl hedit hs)
    · rw [hresult, ← hrow]
    · simp [hresult, hcancellable]
  simp only [JobRow.toJob]
  cases hstatus : r.status with
  | pending =>
    have h := hmoved .cancelled (hstatus ▸ .cancelPending) (.inl hstatus)
      (transitionEdit_ok hr rfl (hstatus ▸ .cancelPending) (fun h => by cases h)
        (fun h => by cases h) (fun h => by cases h))
      (by simp [cancelEdit, hstatus])
    rw [hstatus] at h
    exact h
  | running =>
    have h := hmoved .cancelRequested (hstatus ▸ .requestCancel) (.inr hstatus)
      (transitionEdit_ok hr rfl (hstatus ▸ .requestCancel) (fun h => by cases h)
        (fun h => by cases h) (fun h => by cases h))
      (by simp [cancelEdit, hstatus])
    rw [hstatus] at h
    exact h
  | cancelRequested => exact hkept (by simp [cancelEdit, hstatus]) (.inl hstatus)
  | cancelled => exact hkept (by simp [cancelEdit, hstatus]) (.inr hstatus)
  | succeeded | failed | superseded => exact fun c => by simp [StateError.constraint]

end Cancel

end RemyCC.State
