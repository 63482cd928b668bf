import Mathlib.Data.List.Sort
import RemyCC.Json.Value
import RemyCC.Relational.Table

/-!
# The daemon's state database

The three tables of schema version 2 with their CHECK, UNIQUE and REFERENCES
rules. A `Database` carries the proof of all of them, so the statements at the
end either keep every rule or report the violation SQLite would raise.
-/

namespace RemyCC.State

open Relational

inductive JobPriority where
  | background
  | interactive
  deriving DecidableEq, Repr

def JobPriority.asDb : JobPriority → Int
  | .background => 0
  | .interactive => 1

/-- `MAX(priority, ?1)` on the stored encoding. -/
def JobPriority.max (p q : JobPriority) : JobPriority := if p.asDb < q.asDb then q else p

inductive JobStatus where
  | pending
  | running
  | cancelRequested
  | succeeded
  | failed
  | cancelled
  | superseded
  deriving DecidableEq, Repr

inductive JobType where
  | incrementalScan
  | fullScan
  deriving DecidableEq, Repr

def providerRust : String := "rust"

def fullScanDedupeKey : String := "full_scan"

inductive SqliteError where
  | constraint (error : ConstraintError)
  | queryReturnedNoRows
  deriving DecidableEq, Repr

inductive StateError where
  | sqlite (error : SqliteError)
  | io (message : String)
  | invalidInput (message : String)
  | notFound (jobId : Int)
  | notCancellable (status : JobStatus)
  | invalidTransition (source target : JobStatus)
  | corrupt (message : String)
  deriving DecidableEq, Repr

def StateError.constraint (error : ConstraintError) : StateError := .sqlite (.constraint error)

structure ProjectRow where
  id : Int
  projectKey : String
  projectPath : String
  dbPath : String
  createdAt : Int
  lastSeenAt : Int
  deriving DecidableEq, Repr

/-- A row of `jobs`; the payload columns hold the value their text encodes. -/
structure JobRow where
  id : Int
  projectId : Int
  jobType : JobType
  targetDbPath : String
  filePath : String
  priority : JobPriority
  provider : String
  status : JobStatus
  progressCurrent : Option Int
  progressTotal : Option Int
  progressMessage : Option String
  result : Option Json.Value
  error : Option Json.Value
  createdAt : Int
  startedAt : Option Int
  finishedAt : Option Int
  dedupeKey : String
  supersededByJobId : Option Int

structure PublishedProvider where
  provider : String
  daemonVersion : String
  verifiedAt : Int
  probeSummary : String
  deriving DecidableEq, Repr

namespace JobStatus

def executing (s : JobStatus) : Prop := s = running ∨ s = cancelRequested

instance : DecidablePred executing := fun s => inferInstanceAs (Decidable (s = _ ∨ s = _))

def terminal (s : JobStatus) : Prop :=
  s = succeeded ∨ s = failed ∨ s = cancelled ∨ s = superseded

instance : DecidablePred terminal :=
  fun s => inferInstanceAs (Decidable (s = _ ∨ s = _ ∨ s = _ ∨ s = _))

end JobStatus

namespace JobRow

/-- The columns of the two partial unique indexes. -/
def key (r : JobRow) : Int × JobType × String := (r.projectId, r.jobType, r.dedupeKey)

def ProgressCheck (r : JobRow) : Prop :=
  (∀ c ∈ r.progressCurrent, 0 ≤ c) ∧ (∀ t ∈ r.progressTotal, 0 ≤ t) ∧
    (∀ t ∈ r.progressTotal, ∃ c ∈ r.progressCurrent, c ≤ t)

def TimeCheck (r : JobRow) : Prop :=
  (r.status = .pending ∧ r.startedAt = none ∧ r.finishedAt = none) ∨
  (r.status.executing ∧ r.startedAt ≠ none ∧ r.finishedAt = none) ∨
  ((r.status = .succeeded ∨ r.status = .failed) ∧ r.startedAt ≠ none ∧ r.finishedAt ≠ none) ∨
  ((r.status = .cancelled ∨ r.status = .superseded) ∧ r.finishedAt ≠ none)

def PayloadCheck (r : JobRow) : Prop :=
  (r.status = .succeeded ∧ r.result.isSome ∧ r.error.isNone) ∨
  (r.status = .failed ∧ r.result.isNone ∧ r.error.isSome) ∨
  ((r.status ≠ .succeeded ∧ r.status ≠ .failed) ∧ r.result.isNone ∧ r.error.isNone)

def SupersededCheck (r : JobRow) : Prop :=
  (r.status = .superseded ∧ r.supersededByJobId ≠ none) ∨
  (r.status ≠ .superseded ∧ r.supersededByJobId = none)

/-- The CHECK constraints of `JOBS_DDL_V2`; those on the priority, type and
status columns hold by the types of the fields. -/
def Check (r : JobRow) : Prop :=
  (r.provider = "python" ∨ r.provider = "rust") ∧ 0 ≤ r.createdAt ∧
    r.ProgressCheck ∧ ¬ (r.result.isSome ∧ r.error.isSome) ∧ r.TimeCheck ∧ r.PayloadCheck ∧
    r.SupersededCheck

instance : DecidablePred Check := fun r => by
  unfold Check ProgressCheck TimeCheck PayloadCheck SupersededCheck
  infer_instance

/-- Two rows that cannot stand together: PRIMARY KEY, `jobs_one_pending` and
`jobs_one_executing`. -/
def Clash (r s : JobRow) : Prop :=
  r.id = s.id ∨ (r.status = .pending ∧ s.status = .pending ∧ r.key = s.key) ∨
    (r.status.executing ∧ s.status.executing ∧ r.key = s.key)

instance : DecidableRel Clash := fun r s => by
  unfold Clash
  infer_instance

theorem clash_symm (r s : JobRow) (h : r.Clash s) : s.Clash r := by
  rcases h with h | ⟨hr, hs, h⟩ | ⟨hr, hs, h⟩
  · exact .inl h.symm
  · exact .inr (.inl ⟨hs, hr, h.symm⟩)
  · exact .inr (.inr ⟨hs, hr, h.symm⟩)

end JobRow

namespace ProjectRow

def Check (p : ProjectRow) : Prop := 0 ≤ p.createdAt ∧ p.createdAt ≤ p.lastSeenAt

instance : DecidablePred Check := fun _ => inferInstanceAs (Decidable (_ ∧ _))

def Clash (p q : ProjectRow) : Prop := p.id = q.id ∨ p.projectKey = q.projectKey

instance : DecidableRel Clash := fun _ _ => inferInstanceAs (Decidable (_ ∨ _))

end ProjectRow

def jobsTable : Constraints JobRow where
  check := JobRow.Check
  clash := JobRow.Clash
  clash_symm := JobRow.clash_symm
  decideCheck := inferInstance
  decideClash := inferInstance

def projectsTable : Constraints ProjectRow where
  check := ProjectRow.Check
  clash := ProjectRow.Clash
  clash_symm := fun _ _ h => h.imp Eq.symm Eq.symm
  decideCheck := inferInstance
  decideClash := inferInstance

/-- The REFERENCES clauses of `jobs`. -/
def References (projects : List ProjectRow) (jobs : List JobRow) : Prop :=
  ∀ r ∈ jobs, (∃ p ∈ projects, p.id = r.projectId) ∧
    ∀ k ∈ r.supersededByJobId, ∃ s ∈ jobs, s.id = k

instance (projects : List ProjectRow) (jobs : List JobRow) : Decidable (References projects jobs) :=
  inferInstanceAs (Decidable (∀ r ∈ jobs, _))

def ProviderCheck (p : PublishedProvider) : Prop :=
  (p.provider = "python" ∨ p.provider = "rust") ∧ 0 ≤ p.verifiedAt

instance : DecidablePred ProviderCheck := fun _ => inferInstanceAs (Decidable (_ ∧ _))

structure Database where
  projects : Table projectsTable
  jobs : Table jobsTable
  publishedProvider : Option PublishedProvider
  references : References projects.rows jobs.rows
  providerCheck : ∀ p ∈ publishedProvider, ProviderCheck p

namespace Database

def empty : Database where
  projects := Table.empty
  jobs := Table.empty
  publishedProvider := none
  references := by simp [References, Table.empty]
  providerCheck := by simp

/-- The rowid SQLite gives a new row: one more than the largest in use. -/
def nextRowId : List Int → Int
  | [] => 1
  | id :: ids => ids.foldl max id + 1

/-- `INSERT INTO jobs`; the row is given its rowid, which is returned. -/
def insertJob (db : Database) (row : Int → JobRow) : Except StateError (Database × Int) := do
  let id := nextRowId (db.jobs.rows.map (·.id))
  let jobs ← liftError .constraint (db.jobs.insert (row id))
  if h : References db.projects.rows jobs.rows then
    .ok ({ db with jobs := jobs, references := h }, id)
  else .error (.constraint .foreignKey)

/-- `UPDATE jobs`, with the number of rows its WHERE clause selects. -/
def updateJobs (db : Database) (select : JobRow → Prop) [DecidablePred select]
    (edit : JobRow → JobRow) : Except StateError (Database × Nat) := do
  let (jobs, count) ← liftError .constraint (db.jobs.update select edit)
  if h : References db.projects.rows jobs.rows then
    .ok ({ db with jobs := jobs, references := h }, count)
  else .error (.constraint .foreignKey)

def withProjects (db : Database) (projects : Table projectsTable) : Except StateError Database :=
  if h : References projects.rows db.jobs.rows then
    .ok { db with projects := projects, references := h }
  else .error (.constraint .foreignKey)

def insertProject (db : Database) (row : Int → ProjectRow) : Except StateError Database := do
  let id := nextRowId (db.projects.rows.map (·.id))
  let projects ← liftError .constraint (db.projects.insert (row id))
  db.withProjects projects

def updateProjects (db : Database) (select : ProjectRow → Prop) [DecidablePred select]
    (edit : ProjectRow → ProjectRow) : Except StateError Database := do
  let (projects, _) ← liftError .constraint (db.projects.update select edit)
  db.withProjects projects

def job? (db : Database) (jobId : Int) : Option JobRow := db.jobs.rows.find? (·.id = jobId)

def project? (db : Database) (projectId : Int) : Option ProjectRow :=
  db.projects.rows.find? (·.id = projectId)

end Database

end RemyCC.State
