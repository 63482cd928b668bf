import RemyCC.State.Paths

/-!
# The operations of `StateStore`

Each operation is one transaction: it returns the new database with its
result, or an error that leaves the database as it was. The clock reading is
the number of milliseconds since the Unix epoch.
-/

namespace RemyCC.State

open Relational

structure Job where
  id : Int
  projectId : Int
  projectPath : String
  targetDbPath : String
  jobType : JobType
  filePath : String
  priority : JobPriority
  provider : String
  status : JobStatus
  progressCurrent : Option Int
  progressTotal : Option Int
  progressMessage : Option String
  result : Option Json.Value
  error : Option Json.Value
  createdAt : Int
  startedAt : Option Int
  finishedAt : Option Int
  supersededByJobId : Option Int

structure SubmitJob where
  projectPath : String
  dbPath : String
  filePath : String
  priority : JobPriority
  deriving DecidableEq, Repr

structure SubmitResult where
  job : Job
  created : Bool

structure PromoteResult where
  job : Job
  changed : Bool

structure CancelResult where
  job : Job
  changed : Bool

structure ProgressUpdate where
  current : Int
  total : Int
  message : String
  deriving DecidableEq, Repr

structure ListJobs where
  projectPath : Option String
  filePath : Option String
  status : Option JobStatus
  jobType : Option String
  limit : Nat
  deriving DecidableEq, Repr

structure RecoveryReport where
  requeued : Nat
  cancelled : Nat
  superseded : Nat
  deriving DecidableEq, Repr

def i64Max : Int := 9223372036854775807

def nowMillis (now : Int) : Except StateError Int :=
  if now < 0 then .error (.corrupt "clock is before Unix epoch")
  else if i64Max < now then .error (.corrupt "clock value exceeds SQLite INTEGER")
  else .ok now

def JobRow.toJob (r : JobRow) (project : ProjectRow) : Job where
  id := r.id
  projectId := r.projectId
  projectPath := project.projectPath
  targetDbPath := r.targetDbPath
  jobType := r.jobType
  filePath := r.filePath
  priority := r.priority
  provider := r.provider
  status := r.status
  progressCurrent := r.progressCurrent
  progressTotal := r.progressTotal
  progressMessage := r.progressMessage
  result := r.result
  error := r.error
  createdAt := r.createdAt
  startedAt := r.startedAt
  finishedAt := r.finishedAt
  supersededByJobId := r.supersededByJobId

/-- The join of `jobs` with `projects`; an absent side leaves no row. -/
def loadJob (db : Database) (jobId : Int) : Except StateError Job :=
  match db.job? jobId with
  | none => .error (.notFound jobId)
  | some row =>
    match db.project? row.projectId with
    | none => .error (.notFound jobId)
    | some project => .ok (row.toJob project)

def allowedTransition : JobStatus → JobStatus → Bool
  | .pending, .running => true
  | .pending, .cancelled => true
  | .pending, .superseded => true
  | .running, .pending => true
  | .running, .succeeded => true
  | .running, .failed => true
  | .running, .cancelRequested => true
  | .running, .superseded => true
  | .cancelRequested, .cancelled => true
  | _, _ => false

/-- The columns each UPDATE of `transition_job` sets. -/
def transitionEdit (source target : JobStatus) (now : Int) (supersededBy : Option Int)
    (r : JobRow) : JobRow :=
  match source, target with
  | .pending, .running => { r with status := target, startedAt := some now }
  | .running, .pending =>
    { r with status := target, startedAt := none, finishedAt := none, progressCurrent := none,
             progressTotal := none, progressMessage := none }
  | .running, .cancelRequested => { r with status := target }
  | .pending, .cancelled => { r with status := target, finishedAt := some now }
  | .cancelRequested, .cancelled => { r with status := target, finishedAt := some now }
  | .pending, .superseded =>
    { r with status := target, finishedAt := some now, supersededByJobId := supersededBy }
  | .running, .superseded =>
    { r with status := target, finishedAt := some now, supersededByJobId := supersededBy }
  | _, _ => r

def transitionJob (db : Database) (jobId : Int) (source target : JobStatus) (now : Int)
    (supersededBy : Option Int) : Except StateError (Database × Bool) :=
  if allowedTransition source target then
    match source, target with
    | .running, .succeeded =>
      .error (.invalidInput "succeeded transition requires a result payload")
    | .running, .failed => .error (.invalidInput "failed transition requires an error payload")
    | _, _ => do
      let (db, changed) ← db.updateJobs (fun r => r.id = jobId ∧ r.status = source)
        (transitionEdit source target now supersededBy)
      .ok (db, changed == 1)
  else .error (.invalidTransition source target)

/-- Registration of the project a submission names. -/
def registerProject (db : Database) (key path dbPath : String) (now : Int) :
    Except StateError Database :=
  if ∃ p ∈ db.projects.rows, p.projectKey = key then
    db.updateProjects (·.projectKey = key)
      fun p => { p with projectPath := path, dbPath := dbPath, lastSeenAt := now }
  else
    db.insertProject fun id =>
      { id := id, projectKey := key, projectPath := path, dbPath := dbPath,
        createdAt := now, lastSeenAt := now }

def incrementalDedupeKey (filePath : String) : String := "incremental_scan:" ++ filePath

/-- A freshly inserted row; the columns an INSERT leaves out take their defaults. -/
def newJobRow (projectId : Int) (jobType : JobType) (targetDbPath filePath : String)
    (priority : JobPriority) (status : JobStatus) (now : Int) (dedupeKey : String)
    (id : Int) : JobRow where
  id := id
  projectId := projectId
  jobType := jobType
  targetDbPath := targetDbPath
  filePath := filePath
  priority := priority
  provider := "python"
  status := status
  progressCurrent := none
  progressTotal := none
  progressMessage := none
  result := none
  error := none
  createdAt := now
  startedAt := none
  finishedAt := none
  dedupeKey := dedupeKey
  supersededByJobId := none

def pendingFullScan? (db : Database) (projectId : Int) : Option JobRow :=
  db.jobs.rows.find? fun r =>
    r.projectId = projectId ∧ r.jobType = .fullScan ∧ r.status = .pending

def pendingTwin? (db : Database) (projectId : Int) (dedupeKey : String) : Option JobRow :=
  db.jobs.rows.find? fun r =>
    r.projectId = projectId ∧ r.jobType = .incrementalScan ∧ r.dedupeKey = dedupeKey ∧
      r.status = .pending

/-- The part of `submit` after the project is registered. -/
def enqueue (db : Database) (projectId : Int) (dbPath filePath : String) (priority : JobPriority)
    (now : Int) : Except StateError (Database × SubmitResult) :=
  match pendingFullScan? db projectId with
  | some fullScan => do
    let (db, id) ← db.insertJob fun id =>
      { newJobRow projectId .incrementalScan dbPath filePath priority .superseded now
          (incrementalDedupeKey filePath) id
        with finishedAt := some now, supersededByJobId := some fullScan.id }
    let job ← loadJob db id
    .ok (db, { job := job, created := true })
  | none =>
    match pendingTwin? db projectId (incrementalDedupeKey filePath) with
    | some twin => do
      let (db, _) ← db.updateJobs (·.id = twin.id)
        fun r => { r with priority := r.priority.max priority }
      let job ← loadJob db twin.id
      .ok (db, { job := job, created := false })
    | none => do
      let (db, id) ← db.insertJob
        (newJobRow projectId .incrementalScan dbPath filePath priority .pending now
          (incrementalDedupeKey filePath))
      let job ← loadJob db id
      .ok (db, { job := job, created := true })

def submit (fs : FileSystem) (now : Int) (request : SubmitJob) (db : Database) :
    Except StateError (Database × SubmitResult) := do
  let projectPath ← normalizeExistingProject fs request.projectPath
  let key := projectKey projectPath
  let dbPath ← normalizeDatabasePath fs request.dbPath
  let filePath ← normalizeSourcePath request.filePath
  let now ← nowMillis now
  let db ← registerProject db key projectPath dbPath now
  match db.projects.rows.find? (·.projectKey = key) with
  | none => .error (.sqlite .queryReturnedNoRows)
  | some project => enqueue db project.id dbPath filePath request.priority now

def get (db : Database) (jobId : Int) : Except StateError Job := loadJob db jobId

def activeFullScan? (db : Database) (projectId : Int) : Option JobRow :=
  db.jobs.rows.find? fun r =>
    r.projectId = projectId ∧ r.jobType = .fullScan ∧
      (r.status = .pending ∨ r.status = .running ∨ r.status = .cancelRequested)

def submitFullScan (now : Int) (projectId : Int) (db : Database) :
    Except StateError (Database × SubmitResult) := do
  let now ← nowMillis now
  match db.project? projectId with
  | none => .error (.invalidInput ("project " ++ toString projectId ++ " is not registered"))
  | some project =>
    match activeFullScan? db projectId with
    | some existing =>
      let job ← loadJob db existing.id
      .ok (db, { job := job, created := false })
    | none =>
      let (db, id) ← db.insertJob
        (newJobRow projectId .fullScan project.dbPath "." .background .pending now fullScanDedupeKey)
      let (db, _) ← db.updateJobs
        (fun r => r.projectId = projectId ∧ r.jobType = .incrementalScan ∧ r.status = .pending)
        (transitionEdit .pending .superseded now (some id))
      let job ← loadJob db id
      .ok (db, { job := job, created := true })

def promote (jobId : Int) (priority : JobPriority) (db : Database) :
    Except StateError (Database × PromoteResult) := do
  let (db, changed) ← db.updateJobs
    (fun r => r.id = jobId ∧ r.status = .pending ∧ r.priority.asDb < priority.asDb)
    fun r => { r with priority := r.priority.max priority }
  let job ← get db jobId
  .ok (db, { job := job, changed := changed == 1 })

/-- `ORDER BY priority DESC, created_at ASC, id ASC`. -/
def claimOrder (r s : JobRow) : Prop :=
  s.priority.asDb < r.priority.asDb ∨
    (r.priority.asDb = s.priority.asDb ∧
      (r.createdAt < s.createdAt ∨ (r.createdAt = s.createdAt ∧ r.id ≤ s.id)))

instance : DecidableRel claimOrder := fun _ _ => inferInstanceAs (Decidable (_ ∨ _))

def claimable (db : Database) (r : JobRow) : Prop :=
  r.status = .pending ∧ ¬ ∃ active ∈ db.jobs.rows, active.key = r.key ∧ active.status.executing

instance (db : Database) : DecidablePred (claimable db) :=
  fun _ => inferInstanceAs (Decidable (_ ∧ _))

def nextPending? (db : Database) : Option JobRow :=
  ((db.jobs.rows.filter (claimable db)).insertionSort claimOrder).head?

def claimNextPending (now : Int) (provider : String) (db : Database) :
    Except StateError (Database × Option Job) := do
  if provider ≠ providerRust then
    .error (.invalidInput ("unsupported provider " ++ provider))
  else
    let now ← nowMillis now
    match nextPending? db with
    | none => .ok (db, none)
    | some next =>
      let (db, changed) ← transitionJob db next.id .pending .running now none
      if changed then
        let (db, _) ← db.updateJobs (·.id = next.id) fun r =>
          { r with provider := provider, progressCurrent := some 0, progressTotal := some 3,
                   progressMessage := some "runtime_validation" }
        let job ← loadJob db next.id
        .ok (db, some job)
      else
        .error (.corrupt ("pending job " ++ toString next.id ++ " changed during claim"))

def updateProgress (jobId : Int) (update : ProgressUpdate) (db : Database) :
    Except StateError (Database × Job) := do
  if update.current < 0 ∨ update.total < 0 ∨ update.total < update.current then
    .error (.invalidInput "progress must satisfy 0 <= current <= total")
  else
    let (db, changed) ← db.updateJobs
      (fun r => r.id = jobId ∧ r.status.executing ∧
        ∀ current ∈ r.progressCurrent, current ≤ update.current)
      fun r => { r with progressCurrent := some update.current,
                        progressTotal := some update.total,
                        progressMessage := some update.message }
    if changed = 1 then
      let job ← get db jobId
      .ok (db, job)
    else
      let current ← get db jobId
      .error (.invalidTransition current.status current.status)

/-- How a claimed job ended. -/
inductive Completion where
  | success (result : Json.Value)
  | failure (error : Json.Value)

def Completion.status : Completion → JobStatus
  | .success _ => .succeeded
  | .failure _ => .failed

def Completion.result : Completion → Option Json.Value
  | .success value => some value
  | .failure _ => none

def Completion.error : Completion → Option Json.Value
  | .success _ => none
  | .failure value => some value

def complete (now : Int) (jobId : Int) (completion : Completion) (db : Database) :
    Except StateError (Database × Job) := do
  let now ← nowMillis now
  let current ← loadJob db jobId
  if current.status ≠ .running then
    .error (.invalidTransition current.status completion.status)
  else
    let (db, changed) ← db.updateJobs (fun r => r.id = jobId ∧ r.status = .running) fun r =>
      { r with status := completion.status, progressCurrent := some 3, progressTotal := some 3,
               progressMessage := some "finalizing", result := completion.result,
               error := completion.error, finishedAt := some now }
    if changed = 1 then
      let job ← loadJob db jobId
      .ok (db, job)
    else .error (.corrupt ("running job " ++ toString jobId ++ " changed during completion"))

def completeSuccess (now : Int) (jobId : Int) (result : Json.Value) (db : Database) :
    Except StateError (Database × Job) := complete now jobId (.success result) db

def completeFailure (now : Int) (jobId : Int) (error : Json.Value) (db : Database) :
    Except StateError (Database × Job) := complete now jobId (.failure error) db

def confirmCancelled (now : Int) (jobId : Int) (db : Database) :
    Except StateError (Database × Job) := do
  let now ← nowMillis now
  let current ← loadJob db jobId
  if current.status ≠ .cancelRequested then
    .error (.invalidTransition current.status .cancelled)
  else
    let (db, _) ← transitionJob db jobId .cancelRequested .cancelled now none
    let job ← loadJob db jobId
    .ok (db, job)

def cancel (now : Int) (jobId : Int) (db : Database) :
    Except StateError (Database × CancelResult) := do
  let now ← nowMillis now
  let current ← loadJob db jobId
  let (db, changed) ← match current.status with
    | .pending => transitionJob db jobId .pending .cancelled now none
    | .running => transitionJob db jobId .running .cancelRequested now none
    | .cancelRequested | .cancelled => .ok (db, false)
    | status => .error (.notCancellable status)
  let job ← loadJob db jobId
  .ok (db, { job := job, changed := changed })

def listOrder (r s : JobRow) : Prop :=
  s.createdAt < r.createdAt ∨ (r.createdAt = s.createdAt ∧ s.id ≤ r.id)

instance : DecidableRel listOrder := fun _ _ => inferInstanceAs (Decidable (_ ∨ _))

def jobTypeOfName? (name : String) : Option JobType :=
  if name = "incremental_scan" then some .incrementalScan
  else if name = "full_scan" then some .fullScan
  else none

def list (fs : FileSystem) (filter : ListJobs) (db : Database) : Except StateError (List Job) := do
  let key ← filter.projectPath.mapM (normalizeProjectFilter fs)
  let filePath ← filter.filePath.mapM normalizeSourcePath
  let jobType ← filter.jobType.mapM fun name =>
    match jobTypeOfName? name with
    | some jobType => Except.ok jobType
    | none => .error (.invalidInput ("unsupported job_type " ++ name))
  let selected := db.jobs.rows.filter fun r =>
    (∃ p ∈ db.projects.rows, p.id = r.projectId ∧ ∀ k ∈ key, p.projectKey = k) ∧
      (∀ f ∈ filePath, r.filePath = f) ∧ (∀ s ∈ filter.status, r.status = s) ∧
      ∀ t ∈ jobType, r.jobType = t
  let limit := max 1 (min filter.limit 200)
  ((selected.insertionSort listOrder).take limit).mapM fun r => loadJob db r.id

def recentFailed (fs : FileSystem) (limit : Nat) (db : Database) : Except StateError (List Job) :=
  list fs { projectPath := none, filePath := none, status := some .failed, jobType := none,
            limit := max 1 (min limit 200) } db

/-- `ORDER BY id LIMIT 1` among the pending rows of a key. -/
def successor? (db : Database) (key : Int × JobType × String) : Option JobRow :=
  ((db.jobs.rows.filter fun r => r.key = key ∧ r.status = .pending).insertionSort
    fun r s => r.id ≤ s.id).head?

/-- The first loop of `recover`: one executing row after the other. -/
def recoverRunning (now : Int) :
    List JobRow → Database × RecoveryReport → Except StateError (Database × RecoveryReport)
  | [], state => .ok state
  | r :: rest, (db, report) => do
    match successor? db r.key with
    | some successor =>
      let (db, changed) ← transitionJob db r.id .running .superseded now (some successor.id)
      recoverRunning now rest
        (db, if changed then { report with superseded := report.superseded + 1 } else report)
    | none =>
      let (db, changed) ← transitionJob db r.id .running .pending now none
      recoverRunning now rest
        (db, if changed then { report with requeued := report.requeued + 1 } else report)

def recoverCancelled (now : Int) :
    List JobRow → Database × RecoveryReport → Except StateError (Database × RecoveryReport)
  | [], state => .ok state
  | r :: rest, (db, report) => do
    let (db, changed) ← transitionJob db r.id .cancelRequested .cancelled now none
    recoverCancelled now rest
      (db, if changed then { report with cancelled := report.cancelled + 1 } else report)

def recover (now : Int) (db : Database) : Except StateError (Database × RecoveryReport) := do
  let now ← nowMillis now
  let (db, report) ← recoverRunning now (db.jobs.rows.filter (·.status = .running))
    (db, { requeued := 0, cancelled := 0, superseded := 0 })
  recoverCancelled now (db.jobs.rows.filter (·.status = .cancelRequested)) (db, report)

end RemyCC.State
