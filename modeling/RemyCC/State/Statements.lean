import RemyCC.State.Store

/-!
# What the SQL statements of the store do

A statement that respects the keys and checks of the tables cannot fail, and
its effect is a map over the rows or one appended row. A change is judged row
by row (`EditOk`), so an operation only has to say what it writes.
-/

namespace RemyCC.State

open Relational

def NotConstraint (e : StateError) : Prop := ∀ c, e ≠ .constraint c

theorem JobRow.id_ne_of_not_clash {r s : JobRow} (h : ¬ r.Clash s) : r.id ≠ s.id :=
  fun hid => h (.inl hid)

namespace Database

variable {db : Database}

theorem job_ext {r s : JobRow} (hr : r ∈ db.jobs.rows) (hs : s ∈ db.jobs.rows)
    (h : r.id = s.id) : r = s := by
  by_contra hne
  exact Table.not_clash hr hs hne (.inl h)

theorem pending_ext {r s : JobRow} (hr : r ∈ db.jobs.rows) (hs : s ∈ db.jobs.rows)
    (hrp : r.status = .pending) (hsp : s.status = .pending) (h : r.key = s.key) : r = s := by
  by_contra hne
  exact Table.not_clash hr hs hne (.inr (.inl ⟨hrp, hsp, h⟩))

theorem executing_ext {r s : JobRow} (hr : r ∈ db.jobs.rows) (hs : s ∈ db.jobs.rows)
    (hre : r.status.executing) (hse : s.status.executing) (h : r.key = s.key) : r = s := by
  by_contra hne
  exact Table.not_clash hr hs hne (.inr (.inr ⟨hre, hse, h⟩))

theorem check {r : JobRow} (hr : r ∈ db.jobs.rows) : r.Check := db.jobs.checked r hr

theorem job?_eq_some {id : Int} {r : JobRow} :
    db.job? id = some r ↔ r ∈ db.jobs.rows ∧ r.id = id := by
  constructor
  · intro h
    exact ⟨List.mem_of_find?_eq_some h, by simpa using List.find?_some h⟩
  · rintro ⟨hr, rfl⟩
    cases hf : db.job? r.id with
    | none => simpa using List.find?_eq_none.mp hf r hr
    | some s =>
      have hs := List.mem_of_find?_eq_some hf
      have hid : s.id = r.id := by simpa using List.find?_some hf
      rw [db.job_ext hs hr hid]

theorem job?_eq_none {id : Int} : db.job? id = none ↔ ∀ r ∈ db.jobs.rows, r.id ≠ id := by
  simp [job?]

theorem project_ext {p q : ProjectRow} (hp : p ∈ db.projects.rows) (hq : q ∈ db.projects.rows)
    (h : p.id = q.id) : p = q := by
  by_contra hne
  exact Table.not_clash hp hq hne (.inl h)

theorem project_key_ext {p q : ProjectRow} (hp : p ∈ db.projects.rows)
    (hq : q ∈ db.projects.rows) (h : p.projectKey = q.projectKey) : p = q := by
  by_contra hne
  exact Table.not_clash hp hq hne (.inr h)

theorem project?_eq_some {id : Int} {p : ProjectRow} :
    db.project? id = some p ↔ p ∈ db.projects.rows ∧ p.id = id := by
  constructor
  · intro h
    exact ⟨List.mem_of_find?_eq_some h, by simpa using List.find?_some h⟩
  · rintro ⟨hp, rfl⟩
    cases hf : db.project? p.id with
    | none => simpa using List.find?_eq_none.mp hf p hp
    | some q =>
      have hq := List.mem_of_find?_eq_some hf
      have hid : q.id = p.id := by simpa using List.find?_some hf
      rw [db.project_ext hq hp hid]

theorem exists_project {r : JobRow} (hr : r ∈ db.jobs.rows) :
    ∃ p, db.project? r.projectId = some p := by
  obtain ⟨p, hp, hid⟩ := (db.references r hr).1
  exact ⟨p, project?_eq_some.mpr ⟨hp, hid⟩⟩

theorem lt_nextRowId {ids : List Int} {id : Int} (h : id ∈ ids) : id < nextRowId ids := by
  have bound : ∀ (rest : List Int) (m : Int),
      m ≤ rest.foldl max m ∧ ∀ i ∈ rest, i ≤ rest.foldl max m := by
    intro rest
    induction rest with
    | nil => simp
    | cons a rest ih =>
      intro m
      obtain ⟨hm, hrest⟩ := ih (max m a)
      simp only [List.foldl_cons, List.mem_cons]
      refine ⟨le_trans (le_max_left m a) hm, ?_⟩
      rintro i (rfl | hi)
      · exact le_trans (le_max_right m i) hm
      · exact hrest i hi
  cases ids with
  | nil => cases h
  | cons a ids =>
    obtain ⟨ha, hids⟩ := bound ids a
    have hle : id ≤ ids.foldl max a := by
      rcases List.mem_cons.mp h with rfl | h
      · exact ha
      · exact hids id h
    exact Int.lt_add_one_of_le hle

/-- The rowid the next inserted job gets. -/
def freshId (db : Database) : Int := nextRowId (db.jobs.rows.map (·.id))

theorem lt_freshId {r : JobRow} (hr : r ∈ db.jobs.rows) : r.id < db.freshId :=
  lt_nextRowId (List.mem_map.mpr ⟨r, hr, rfl⟩)

/-- The projects and the published provider stand as before. -/
structure SameRest (db db' : Database) : Prop where
  projects : db'.projects = db.projects
  publishedProvider : db'.publishedProvider = db.publishedProvider

theorem SameRest.refl (db : Database) : SameRest db db := ⟨rfl, rfl⟩

theorem SameRest.trans {db₁ db₂ db₃ : Database} (h : SameRest db₁ db₂) (h' : SameRest db₂ db₃) :
    SameRest db₁ db₃ :=
  ⟨h'.projects.trans h.projects, h'.publishedProvider.trans h.publishedProvider⟩

theorem SameRest.project? {db' : Database} (h : SameRest db db') (id : Int) :
    db'.project? id = db.project? id := by
  unfold Database.project?
  rw [h.projects]

/-- What an inserted row has to be for the INSERT to go through. -/
structure InsertOk (db : Database) (row : JobRow) : Prop where
  id : row.id = db.freshId
  check : row.Check
  pending : row.status = .pending → ∀ s ∈ db.jobs.rows, s.key = row.key → s.status ≠ .pending
  executing : ¬ row.status.executing
  project : ∃ p ∈ db.projects.rows, p.id = row.projectId
  superseded : ∀ k ∈ row.supersededByJobId, ∃ s ∈ db.jobs.rows, s.id = k

theorem InsertOk.not_clash {row : JobRow} (h : InsertOk db row) {s : JobRow}
    (hs : s ∈ db.jobs.rows) : ¬ row.Clash s := by
  rintro (hid | ⟨hr, hsp, hkey⟩ | ⟨hr, -, -⟩)
  · have hlt := db.lt_freshId hs
    rw [← hid, h.id] at hlt
    exact lt_irrefl _ hlt
  · exact h.pending hr s hs hkey.symm hsp
  · exact h.executing hr

theorem insertJob_yields (row : Int → JobRow) (h : InsertOk db (row db.freshId))
    (err : StateError → Prop) :
    Yields (db.insertJob row)
      (fun r => r.2 = db.freshId ∧ r.1.jobs.rows = db.jobs.rows ++ [row db.freshId] ∧
        SameRest db r.1) err := by
  refine Yields.through (fun jobs => jobs.rows = db.jobs.rows ++ [row db.freshId]) ?_ ?_
  · exact Yields.liftError (Table.insert_yields _ _ h.check (fun s hs => h.not_clash hs) _)
  · intro jobs _ hrows
    have href : References db.projects.rows jobs.rows := by
      rw [hrows]
      intro r hr
      rcases List.mem_append.mp hr with hr | hr
      · refine ⟨(db.references r hr).1, fun k hk => ?_⟩
        obtain ⟨s, hs, hid⟩ := (db.references r hr).2 k hk
        exact ⟨s, List.mem_append_left _ hs, hid⟩
      · rw [List.mem_singleton.mp hr]
        refine ⟨h.project, fun k hk => ?_⟩
        obtain ⟨s, hs, hid⟩ := h.superseded k hk
        exact ⟨s, List.mem_append_left _ hs, hid⟩
    rw [dif_pos href]
    exact ⟨rfl, hrows, rfl, rfl⟩

/-- What a changed row has to be next to the other rows. -/
structure EditOk (db : Database) (r r' : JobRow) : Prop where
  id : r'.id = r.id
  key : r'.key = r.key
  check : r'.Check
  pending : r'.status = .pending →
    r.status = .pending ∨ ∀ s ∈ db.jobs.rows, s.key = r.key → s.status ≠ .pending
  executing : r'.status.executing →
    r.status.executing ∨ ∀ s ∈ db.jobs.rows, s.key = r.key → ¬ s.status.executing
  superseded : ∀ k ∈ r'.supersededByJobId,
    k ∈ r.supersededByJobId ∨ ∃ s ∈ db.jobs.rows, s.id = k

theorem EditOk.not_clash {r r' s : JobRow} (h : EditOk db r r') (hr : r ∈ db.jobs.rows)
    (hs : s ∈ db.jobs.rows) (hne : r.id ≠ s.id) : ¬ r'.Clash s := by
  rintro (hid | ⟨hr', hsp, hkey⟩ | ⟨hr', hse, hkey⟩)
  · exact hne (h.id ▸ hid)
  · rw [h.key] at hkey
    rcases h.pending hr' with hp | hnone
    · exact hne (congrArg JobRow.id (db.pending_ext hr hs hp hsp hkey))
    · exact hnone s hs hkey.symm hsp
  · rw [h.key] at hkey
    rcases h.executing hr' with he | hnone
    · exact hne (congrArg JobRow.id (db.executing_ext hr hs he hse hkey))
    · exact hnone s hs hkey.symm hse

section Update

variable {select : JobRow → Prop} [DecidablePred select] {edit : JobRow → JobRow}

theorem updateJobs_yields (hsafe : Table.Safe jobsTable select edit db.jobs.rows)
    (hok : ∀ r ∈ db.jobs.rows, select r → EditOk db r (edit r)) (err : StateError → Prop) :
    Yields (db.updateJobs select edit)
      (fun r => r.1.jobs.rows = db.jobs.rows.map (Table.apply select edit) ∧
        r.2 = db.jobs.rows.countP (select ·) ∧ SameRest db r.1) err := by
  refine Yields.through (fun u => u.1.rows = db.jobs.rows.map (Table.apply select edit) ∧
    u.2 = db.jobs.rows.countP (select ·)) ?_ ?_
  · exact Yields.liftError (Table.update_yields _ hsafe _)
  · rintro ⟨jobs, count⟩ _ ⟨hrows, hcount⟩
    simp only at hrows hcount
    have hid : ∀ r ∈ db.jobs.rows, (Table.apply select edit r).id = r.id := by
      intro r hr
      unfold Table.apply
      split
      · exact (hok r hr ‹_›).id
      · rfl
    have hmem : ∀ k, (∃ s ∈ db.jobs.rows, s.id = k) → ∃ s ∈ jobs.rows, s.id = k := by
      rintro k ⟨s, hs, rfl⟩
      exact ⟨_, hrows ▸ List.mem_map.mpr ⟨s, hs, rfl⟩, hid s hs⟩
    have href : References db.projects.rows jobs.rows := by
      intro r' hr'
      rw [hrows] at hr'
      obtain ⟨r, hr, rfl⟩ := List.mem_map.mp hr'
      unfold Table.apply
      split
      · rename_i hsel
        have hedit := hok r hr hsel
        have hproject : (edit r).projectId = r.projectId := congrArg Prod.fst hedit.key
        refine ⟨hproject ▸ (db.references r hr).1, fun k hk => ?_⟩
        rcases hedit.superseded k hk with hold | hnew
        · exact hmem k ((db.references r hr).2 k hold)
        · exact hmem k hnew
      · exact ⟨(db.references r hr).1, fun k hk => hmem k ((db.references r hr).2 k hk)⟩
    simp only
    rw [dif_pos href]
    exact ⟨hrows, hcount, rfl, rfl⟩

/-- A change that selects by primary key. -/
theorem updateJob_yields (db : Database) (jobId : Int) (hselect : ∀ r, select r → r.id = jobId)
    (hok : ∀ r ∈ db.jobs.rows, select r → EditOk db r (edit r)) (err : StateError → Prop) :
    Yields (db.updateJobs select edit)
      (fun r => r.1.jobs.rows = db.jobs.rows.map (Table.apply select edit) ∧
        r.2 = db.jobs.rows.countP (select ·) ∧ SameRest db r.1) err := by
  refine updateJobs_yields (Table.safe_of_key JobRow.id _ ?_ ?_ ?_ ?_) hok err
  · exact fun r s h => .inl h
  · exact fun r _ s _ hr hs => (hselect r hr).trans (hselect s hs).symm
  · exact fun r hr hsel => (hok r hr hsel).check
  · exact fun r hr hsel s hs hne => (hok r hr hsel).not_clash hr hs hne

/-- A change of any number of rows that takes them out of the unique indexes. -/
theorem updateJobs_yields_of_terminal (db : Database) (hterminal : ∀ r, (edit r).status.terminal)
    (hok : ∀ r ∈ db.jobs.rows, select r → EditOk db r (edit r)) (err : StateError → Prop) :
    Yields (db.updateJobs select edit)
      (fun r => r.1.jobs.rows = db.jobs.rows.map (Table.apply select edit) ∧
        r.2 = db.jobs.rows.countP (select ·) ∧ SameRest db r.1) err := by
  have hclash : ∀ r ∈ db.jobs.rows, select r → ∀ s : JobRow, r.id ≠ s.id →
      ¬ (edit r).Clash s := by
    rintro r hr hsel s hne (hid | ⟨hp, -, -⟩ | ⟨he, -, -⟩)
    · exact hne ((hok r hr hsel).id ▸ hid)
    · have ht := hterminal r
      simp [hp, JobStatus.terminal] at ht
    · have ht := hterminal r
      rcases he with he | he <;> simp [he, JobStatus.terminal] at ht
  refine updateJobs_yields ⟨fun r hr hsel => (hok r hr hsel).check, ?_⟩ hok err
  refine db.jobs.distinct.imp_of_mem ?_
  intro r s hr hs hn
  have hne := JobRow.id_ne_of_not_clash hn
  refine ⟨fun hsel => hclash r hr hsel s hne, fun hsel => hclash s hs hsel _ ?_⟩
  unfold Table.apply
  split
  · rename_i hsel'
    rw [(hok r hr hsel').id]
    exact Ne.symm hne
  · exact Ne.symm hne

/-- How many rows an update by primary key selects. -/
theorem countP_eq_one {r : JobRow} (hr : r ∈ db.jobs.rows) (hselect : ∀ s, select s → s.id = r.id)
    (h : select r) : db.jobs.rows.countP (select ·) = 1 := by
  have hnodup : db.jobs.rows.Nodup := by
    refine db.jobs.distinct.imp ?_
    intro r s hn heq
    exact hn (.inl (congrArg JobRow.id heq))
  rw [List.countP_eq_length_filter]
  have hmem : ∀ s, s ∈ db.jobs.rows.filter (select ·) ↔ s = r := by
    intro s
    simp only [List.mem_filter, decide_eq_true_eq]
    constructor
    · rintro ⟨hs, hsel⟩
      exact db.job_ext hs hr (hselect s hsel)
    · rintro rfl
      exact ⟨hr, h⟩
  have hperm : (db.jobs.rows.filter (select ·)).Perm [r] :=
    (List.perm_ext_iff_of_nodup (hnodup.filter _) (List.nodup_singleton r)).mpr (by simpa using hmem)
  simpa using hperm.length_eq

theorem countP_eq_zero (h : ∀ r ∈ db.jobs.rows, ¬ select r) :
    db.jobs.rows.countP (select ·) = 0 := by
  simpa [List.countP_eq_zero] using h

end Update

theorem loadJob_eq {r : JobRow} (hr : r ∈ db.jobs.rows) {p : ProjectRow}
    (hp : db.project? r.projectId = some p) : loadJob db r.id = .ok (r.toJob p) := by
  have hjob : db.job? r.id = some r := job?_eq_some.mpr ⟨hr, rfl⟩
  simp [loadJob, hjob, hp]

theorem loadJob_ok {id : Int} {job : Job} (h : loadJob db id = .ok job) :
    ∃ r ∈ db.jobs.rows, r.id = id ∧ ∃ p, db.project? r.projectId = some p ∧ job = r.toJob p := by
  unfold loadJob at h
  split at h
  · cases h
  · rename_i r hr
    split at h
    · cases h
    · rename_i p hp
      cases h
      obtain ⟨hmem, hid⟩ := job?_eq_some.mp hr
      exact ⟨r, hmem, hid, p, hp, rfl⟩

theorem loadJob_yields (id : Int) :
    Yields (loadJob db id)
      (fun job => ∃ r ∈ db.jobs.rows, r.id = id ∧ ∃ p, db.project? r.projectId = some p ∧
        job = r.toJob p) (fun e => e = .notFound id ∧ ∀ r ∈ db.jobs.rows, r.id ≠ id) := by
  cases h : loadJob db id with
  | ok job => exact loadJob_ok h
  | error e =>
    unfold loadJob at h
    split at h
    · rename_i hnone
      cases h
      exact ⟨rfl, job?_eq_none.mp hnone⟩
    · rename_i r hr
      obtain ⟨p, hp⟩ := db.exists_project (job?_eq_some.mp hr).1
      rw [hp] at h
      cases h

end Database

end RemyCC.State
