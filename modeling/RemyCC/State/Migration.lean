import RemyCC.State.Recovery

/-!
# From the first schema to the second

The migration rebuilds `jobs` with one more column and a wider `job_type`, inside
one transaction. What the first schema allows the second allows too, so the copy
meets no constraint and the row ids keep every reference.
-/

namespace RemyCC.State

open Relational Database

/-- A row of `jobs` in the first schema. -/
structure JobRowV1 where
  id : Int
  projectId : Int
  jobType : JobType
  targetDbPath : String
  filePath : String
  priority : JobPriority
  status : JobStatus
  progressCurrent : Option Int
  progressTotal : Option Int
  progressMessage : Option String
  result : Option Json.Value
  error : Option Json.Value
  createdAt : Int
  startedAt : Option Int
  finishedAt : Option Int
  dedupeKey : String
  supersededByJobId : Option Int

namespace JobRowV1

/-- The columns that the INSERT of the migration selects. -/
def migrated (r : JobRowV1) : JobRow where
  id := r.id
  projectId := r.projectId
  jobType := r.jobType
  targetDbPath := r.targetDbPath
  filePath := r.filePath
  priority := r.priority
  provider := "python"
  status := r.status
  progressCurrent := r.progressCurrent
  progressTotal := r.progressTotal
  progressMessage := r.progressMessage
  result := r.result
  error := r.error
  createdAt := r.createdAt
  startedAt := r.startedAt
  finishedAt := r.finishedAt
  dedupeKey := r.dedupeKey
  supersededByJobId := r.supersededByJobId

/-- The CHECK constraints of `SCHEMA_V1`; those on shared columns are worded alike. -/
def Check (r : JobRowV1) : Prop :=
  r.jobType = .incrementalScan ∧ 0 ≤ r.createdAt ∧ r.migrated.ProgressCheck ∧
    ¬(r.result.isSome ∧ r.error.isSome) ∧ r.migrated.TimeCheck ∧ r.migrated.PayloadCheck ∧
      r.migrated.SupersededCheck

instance : DecidablePred Check := fun r => by
  unfold Check JobRow.ProgressCheck JobRow.TimeCheck JobRow.PayloadCheck JobRow.SupersededCheck
  infer_instance

end JobRowV1

def jobsTableV1 : Constraints JobRowV1 where
  check := JobRowV1.Check
  clash := fun r s => r.migrated.Clash s.migrated
  clash_symm := fun _ _ => JobRow.clash_symm _ _
  decideCheck := inferInstance
  decideClash := fun _ _ => inferInstance

structure DatabaseV1 where
  projects : Table projectsTable
  jobs : Table jobsTableV1
  references : ∀ r ∈ jobs.rows, (∃ p ∈ projects.rows, p.id = r.projectId) ∧
    ∀ k ∈ r.supersededByJobId, ∃ s ∈ jobs.rows, s.id = k

/-- What stands in the file of the store. -/
inductive StateFile where
  | fresh
  | unknownObjects
  | v1 (db : DatabaseV1)
  | v2 (db : Database)
  | newer (version : Nat)

/-- Where a statement of `open` fails for a reason outside of the tables. -/
structure Faults where
  migration : Option StateError
  settings : Option StateError
  recovery : Option StateError

def Faults.none : Faults := ⟨.none, .none, .none⟩

/-- The INSERT under the CHECKs of the new table, then its unique indexes. -/
def createJobs (rows : List JobRow) : Except ConstraintError (Table jobsTable) :=
  if hcheck : ∀ r ∈ rows, r.Check then
    if hdistinct : rows.Pairwise fun r s => ¬r.Clash s then
      .ok ⟨rows, hcheck, hdistinct⟩
    else .error .unique
  else .error .check

/-- The rows of `pragma_foreign_key_check`: one for each broken reference. -/
def foreignKeyViolations (projects : List ProjectRow) (jobs : List JobRow) : Nat :=
  jobs.countP (fun r => ¬∃ p ∈ projects, p.id = r.projectId) +
    jobs.countP (fun r => ¬∀ k ∈ r.supersededByJobId, ∃ s ∈ jobs, s.id = k)

theorem foreignKeyViolations_eq_zero {projects : List ProjectRow} {jobs : List JobRow} :
    foreignKeyViolations projects jobs = 0 ↔ References projects jobs := by
  simp only [foreignKeyViolations, Nat.add_eq_zero_iff, List.countP_eq_zero, decide_eq_true_eq,
    not_not, References]
  exact ⟨fun h r hr => ⟨h.1 r hr, h.2 r hr⟩, fun h => ⟨fun r hr => (h r hr).1, fun r hr => (h r hr).2⟩⟩

theorem providerCheck_none : ∀ p ∈ (none : Option PublishedProvider), ProviderCheck p := by simp

def migrateV1ToV2 (db : DatabaseV1) : Except StateError Database := do
  let jobs ← liftError .constraint (createJobs (db.jobs.rows.map JobRowV1.migrated))
  let violations := foreignKeyViolations db.projects.rows jobs.rows
  if h : violations = 0 then
    .ok { projects := db.projects, jobs := jobs, publishedProvider := none,
          references := foreignKeyViolations_eq_zero.mp h, providerCheck := providerCheck_none }
  else
    .error (.corrupt ("v1 to v2 migration produced " ++ toString violations ++
      " foreign key violations"))

/-- What `initialize_or_migrate` leaves in the file; its transactions are kept whole or
not at all. -/
def initializeOrMigrate (faults : Faults) (file : StateFile) :
    StateFile × Except StateError Unit :=
  match file with
  | .newer version =>
    (file, .error (.corrupt ("state schema " ++ toString version ++ " is newer than supported 2")))
  | .v2 _ => (file, .ok ())
  | .unknownObjects =>
    (file, .error (.corrupt "unversioned state database contains unknown objects"))
  | .fresh =>
    match faults.migration with
    | some e => (file, .error e)
    | none => (.v2 .empty, .ok ())
  | .v1 db =>
    match faults.migration with
    | some e => (file, .error e)
    | none =>
      match migrateV1ToV2 db with
      | .error e => (file, .error e)
      | .ok db => (.v2 db, .ok ())

def openStore (faults : Faults) (now : Int) (file : StateFile) :
    StateFile × Except StateError RecoveryReport :=
  match initializeOrMigrate faults file with
  | (file, .error e) => (file, .error e)
  | (.v2 db, .ok ()) =>
    match faults.settings.or faults.recovery with
    | some e => (.v2 db, .error e)
    | none =>
      match recover now db with
      | .error e => (.v2 db, .error e)
      | .ok (db, report) => (.v2 db, .ok report)
  | (file, .ok ()) => (file, .error (.corrupt "state schema has no migration handler"))

section Migrate

variable {db : DatabaseV1}

theorem migrated_check {r : JobRowV1} (h : r.Check) : r.migrated.Check := by
  obtain ⟨-, hcreated, hprogress, hboth, htime, hpayload, hsuperseded⟩ := h
  exact ⟨.inl rfl, hcreated, hprogress, hboth, htime, hpayload, hsuperseded⟩

theorem migrated_references (db : DatabaseV1) :
    References db.projects.rows (db.jobs.rows.map JobRowV1.migrated) := by
  intro r hr
  obtain ⟨old, hold, rfl⟩ := List.mem_map.mp hr
  obtain ⟨hproject, hsuperseded⟩ := db.references old hold
  refine ⟨hproject, fun k hk => ?_⟩
  obtain ⟨s, hs, hid⟩ := hsuperseded k hk
  exact ⟨s.migrated, List.mem_map_of_mem hs, hid⟩

/-- The migration of a database of the first schema goes through. -/
theorem migrate_ok (db : DatabaseV1) : ∃ db', migrateV1ToV2 db = .ok db' ∧
    db'.projects = db.projects ∧ db'.jobs.rows = db.jobs.rows.map JobRowV1.migrated ∧
      db'.publishedProvider = none := by
  have hcheck : ∀ r ∈ db.jobs.rows.map JobRowV1.migrated, r.Check := by
    intro r hr
    obtain ⟨old, hold, rfl⟩ := List.mem_map.mp hr
    exact migrated_check (db.jobs.checked old hold)
  have hdistinct : (db.jobs.rows.map JobRowV1.migrated).Pairwise fun r s => ¬r.Clash s :=
    List.pairwise_map.mpr db.jobs.distinct
  have hviolations := foreignKeyViolations_eq_zero.mpr (migrated_references db)
  have hjobs : liftError StateError.constraint (createJobs (db.jobs.rows.map JobRowV1.migrated)) =
      .ok ⟨db.jobs.rows.map JobRowV1.migrated, hcheck, hdistinct⟩ := by
    rw [createJobs, dif_pos hcheck, dif_pos hdistinct]
    rfl
  refine ⟨⟨db.projects, ⟨_, hcheck, hdistinct⟩, none, migrated_references db, by simp⟩, ?_, rfl, rfl,
    rfl⟩
  rw [migrateV1ToV2, hjobs]
  exact dif_pos hviolations

end Migrate

section Open

/-- The status and the successor that the opening gives a row of the first schema. -/
inductive Settled (db : DatabaseV1) (r : JobRowV1) : JobStatus → Option Int → Prop
  | kept (hidle : ¬r.status.executing) : Settled db r r.status r.supersededByJobId
  | cancelled (hrequested : r.status = .cancelRequested) : Settled db r .cancelled r.supersededByJobId
  | requeued (hrunning : r.status = .running)
    (halone : ∀ s ∈ db.jobs.rows, s.migrated.key = r.migrated.key → s.status ≠ .pending) :
    Settled db r .pending r.supersededByJobId
  | replaced (hrunning : r.status = .running) (s : JobRowV1) (hs : s ∈ db.jobs.rows)
    (hkey : s.migrated.key = r.migrated.key) (hpending : s.status = .pending) :
    Settled db r .superseded (some s.id)

structure Preserves (db : DatabaseV1) (r : JobRowV1) (r' : JobRow) : Prop where
  id : r'.id = r.id
  projectId : r'.projectId = r.projectId
  jobType : r'.jobType = r.jobType
  targetDbPath : r'.targetDbPath = r.targetDbPath
  filePath : r'.filePath = r.filePath
  priority : r'.priority = r.priority
  payloads : r'.result = r.result ∧ r'.error = r.error
  createdAt : r'.createdAt = r.createdAt
  dedupeKey : r'.dedupeKey = r.dedupeKey
  settled : Settled db r r'.status r'.supersededByJobId

/-- The database of the second schema holds what the one of the first did. -/
structure Carries (db : DatabaseV1) (db' : Database) : Prop where
  projects : db'.projects = db.projects
  kept : ∀ r ∈ db.jobs.rows, ∃ r' ∈ db'.jobs.rows, Preserves db r r'
  origin : ∀ r' ∈ db'.jobs.rows, ∃ r ∈ db.jobs.rows, Preserves db r r'
  checked : ∀ r' ∈ db'.jobs.rows, r'.Check
  distinct : db'.jobs.rows.Pairwise fun r s => ¬r.Clash s
  references : References db'.projects.rows db'.jobs.rows

variable {db : DatabaseV1} {base : Database} {now : Int}

theorem recoverRow_preserves (hrows : base.jobs.rows = db.jobs.rows.map JobRowV1.migrated)
    (r : JobRowV1) : Preserves db r (recoverRow base now r.migrated) := by
  have hkept : ¬r.status.executing → Preserves db r r.migrated := fun hidle =>
    ⟨rfl, rfl, rfl, rfl, rfl, rfl, ⟨rfl, rfl⟩, rfl, rfl, .kept hidle⟩
  cases hstatus : r.status with
  | running =>
    have hrow : recoverRow base now r.migrated = requeueEdit base now r.migrated := by
      rw [recoverRow, show r.migrated.status = .running from hstatus]
    rw [hrow, requeueEdit]
    cases hsuccessor : successor? base r.migrated.key with
    | none =>
      refine ⟨rfl, rfl, rfl, rfl, rfl, rfl, ⟨rfl, rfl⟩, rfl, rfl, .requeued hstatus ?_⟩
      intro s hs hkey
      exact successor?_eq_none hsuccessor s.migrated (hrows ▸ List.mem_map_of_mem hs) hkey
    | some successor =>
      obtain ⟨hmem, hkey, hpending⟩ := successor?_eq_some hsuccessor
      rw [hrows] at hmem
      obtain ⟨s, hs, rfl⟩ := List.mem_map.mp hmem
      exact ⟨rfl, rfl, rfl, rfl, rfl, rfl, ⟨rfl, rfl⟩, rfl, rfl,
        .replaced hstatus s hs hkey hpending⟩
  | cancelRequested =>
    have hrow : recoverRow base now r.migrated =
        transitionEdit .cancelRequested .cancelled now none r.migrated := by
      rw [recoverRow, show r.migrated.status = .cancelRequested from hstatus]
    rw [hrow]
    exact ⟨rfl, rfl, rfl, rfl, rfl, rfl, ⟨rfl, rfl⟩, rfl, rfl, .cancelled hstatus⟩
  | pending | succeeded | failed | cancelled | superseded =>
    have hrow : recoverRow base now r.migrated = r.migrated := by
      rw [recoverRow, show r.migrated.status = _ from hstatus]
    rw [hrow]
    exact hkept (by rw [hstatus]; decide)

theorem recovered_carries {db' : Database} (hprojects : base.projects = db.projects)
    (hrows : base.jobs.rows = db.jobs.rows.map JobRowV1.migrated)
    (hrecovered : db'.jobs.rows = base.jobs.rows.map (recoverRow base now))
    (hrest : SameRest base db') : Carries db db' where
  projects := hrest.projects.trans hprojects
  kept r hr := by
    have hpreserved : Preserves db r (recoverRow base now r.migrated) := recoverRow_preserves hrows r
    refine ⟨_, ?_, hpreserved⟩
    rw [hrecovered, hrows, List.map_map]
    exact List.mem_map.mpr ⟨r, hr, rfl⟩
  origin r' hr' := by
    rw [hrecovered, hrows, List.map_map] at hr'
    obtain ⟨r, hr, rfl⟩ := List.mem_map.mp hr'
    exact ⟨r, hr, recoverRow_preserves hrows r⟩
  checked r' hr' := db'.check hr'
  distinct := db'.jobs.distinct
  references := db'.references

/-- A failed opening leaves the first schema as it was, or its rows in the second. -/
def Unharmed (db : DatabaseV1) (file : StateFile) : Prop :=
  file = .v1 db ∨ ∃ db', file = .v2 db' ∧ db'.projects = db.projects ∧
    db'.jobs.rows = db.jobs.rows.map JobRowV1.migrated

theorem openStore_carries (db : DatabaseV1) (faults : Faults) (now : Int) :
    (∀ file e, openStore faults now (.v1 db) = (file, .error e) → Unharmed db file) ∧
      (∀ file report, openStore faults now (.v1 db) = (file, .ok report) →
        ∃ db', file = .v2 db' ∧ Carries db db') ∧
      (Readable now → ∃ file report, openStore .none now (.v1 db) = (file, .ok report)) := by
  obtain ⟨base, hmigrate, hprojects, hrows, -⟩ := migrate_ok db
  have hopen (faults : Faults) : initializeOrMigrate faults (.v1 db) =
      match faults.migration with
      | some e => (.v1 db, .error e)
      | none => (.v2 base, .ok ()) := by
    rw [initializeOrMigrate, hmigrate]
  refine ⟨fun file e h => ?_, fun file report h => ?_, fun hnow => ?_⟩
  · rw [openStore, hopen] at h
    cases hmigration : faults.migration with
    | some e' =>
      rw [hmigration] at h
      cases h
      exact .inl rfl
    | none =>
      rw [hmigration] at h
      simp only at h
      cases hfault : faults.settings.or faults.recovery with
      | some e' =>
        rw [hfault] at h
        cases h
        exact .inr ⟨base, rfl, hprojects, hrows⟩
      | none =>
        rw [hfault] at h
        cases hrecover : recover now base with
        | error e' =>
          rw [hrecover] at h
          cases h
          exact .inr ⟨base, rfl, hprojects, hrows⟩
        | ok u =>
          rw [hrecover] at h
          cases h
  · rw [openStore, hopen] at h
    cases hmigration : faults.migration with
    | some e' =>
      rw [hmigration] at h
      cases h
    | none =>
      rw [hmigration] at h
      simp only at h
      cases hfault : faults.settings.or faults.recovery with
      | some e' =>
        rw [hfault] at h
        cases h
      | none =>
        rw [hfault] at h
        cases hrecover : recover now base with
        | error e' =>
          rw [hrecover] at h
          cases h
        | ok u =>
          rw [hrecover] at h
          cases h
          obtain ⟨-, hrecovered, hrest⟩ := recover_yields.of_eq_ok hrecover
          exact ⟨u.1, rfl, recovered_carries hprojects hrows hrecovered hrest⟩
  · cases hrecover : recover now base with
    | error e => exact absurd hnow (recover_yields.of_eq_error hrecover).2
    | ok u =>
      refine ⟨.v2 u.1, u.2, ?_⟩
      rw [openStore, hopen]
      simp only [Faults.none, Option.or_none, hrecover]

/-- A row of `a.py` that stands in the queue with the given status. -/
def twinRow (id : Int) (status : JobStatus) (startedAt : Option Int) : JobRowV1 where
  id := id
  projectId := 1
  jobType := .incrementalScan
  targetDbPath := "/p/i.db"
  filePath := "a.py"
  priority := .background
  status := status
  progressCurrent := none
  progressTotal := none
  progressMessage := none
  result := none
  error := none
  createdAt := 1
  startedAt := startedAt
  finishedAt := none
  dedupeKey := incrementalDedupeKey "a.py"
  supersededByJobId := none

/-- A running job whose file was submitted once more. -/
def twinsV1 : DatabaseV1 where
  projects := ⟨[⟨1, "/p", "/p", "/p/i.db", 1, 1⟩], by decide, by decide⟩
  jobs := ⟨[twinRow 1 .running (some 2), twinRow 2 .pending none], by decide, by decide⟩
  references := by decide

/-- The rows after an opening with their successors. -/
def successors (opened : StateFile × Except StateError RecoveryReport) : List (Int × Option Int) :=
  match opened with
  | (.v2 db, .ok _) => db.jobs.rows.map fun r => (r.id, r.supersededByJobId)
  | _ => []

theorem twin_superseded : ∃ report db',
    openStore .none 3 (.v1 twinsV1) = (.v2 db', .ok report) ∧
      ∃ r ∈ twinsV1.jobs.rows, ∃ r' ∈ db'.jobs.rows,
        r'.id = r.id ∧ r'.supersededByJobId ≠ r.supersededByJobId := by
  have hopened : successors (openStore .none 3 (.v1 twinsV1)) = [(1, some 2), (2, none)] := by
    decide
  generalize hresult : openStore .none 3 (.v1 twinsV1) = result at hopened
  obtain ⟨file, outcome⟩ := result
  cases file with
  | v2 db' =>
    cases outcome with
    | ok report =>
      refine ⟨report, db', rfl, twinRow 1 .running (some 2), List.mem_cons_self, ?_⟩
      have hmem : ((1 : Int), some (2 : Int)) ∈
          db'.jobs.rows.map fun r => (r.id, r.supersededByJobId) := by
        rw [show db'.jobs.rows.map (fun r => (r.id, r.supersededByJobId)) = _ from hopened]
        exact List.mem_cons_self
      obtain ⟨r', hr', heq⟩ := List.mem_map.mp hmem
      obtain ⟨hid, hsuperseded⟩ := Prod.mk.inj heq
      exact ⟨r', hr', hid, by rw [hsuperseded]; exact Option.some_ne_none 2⟩
    | error e => cases hopened
  | fresh | unknownObjects | v1 | newer => cases hopened

end Open

end RemyCC.State
