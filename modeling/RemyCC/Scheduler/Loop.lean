import RemyCC.State.Evolution

/-!
# The scheduler loop and the system around it

The loop owns the store and the slot of the active job. Clients and workers
only append to its queue; every iteration takes one command, handles it and
dispatches. An error of a worker event or of the dispatch ends the loop.
-/

namespace RemyCC.Scheduler

open State

inductive WorkerOutcome where
  | succeeded (result : Json.Value)
  | failed (error : Json.Value)

inductive WorkerEvent where
  | progress (jobId current : Int) (message : String)
  | complete (jobId : Int) (outcome : WorkerOutcome)

/-- The commands of the channel; the reply senders are the `Reply` each
command is answered with. -/
inductive Command where
  | submit (request : SubmitJob)
  | submitFullScan (projectId : Int)
  | promote (jobId : Int) (priority : JobPriority)
  | get (jobId : Int)
  | cancel (jobId : Int)
  | list (filter : ListJobs)
  | status
  | worker (event : WorkerEvent)
  | shutdown

inductive Reply where
  | submit (result : Except StateError SubmitResult)
  | promote (result : Except StateError PromoteResult)
  | get (result : Except StateError Job)
  | cancel (result : Except StateError CancelResult)
  | list (result : Except StateError (List Job))
  | status (result : Except StateError (List Job × List Job))

/-- The slot of the running job; `cancel` is the value of the flag the worker polls. -/
structure ActiveJob where
  jobId : Int
  cancel : Bool
  deriving DecidableEq, Repr

/-- What the loop owns. -/
structure Owned where
  store : Database
  activeJob : Option ActiveJob

/-- The reply a store call is answered with, and the store it leaves behind. -/
def answer {α : Type} (s : Owned) (wrap : Except StateError α → Reply)
    (result : Except StateError (Database × α)) : Owned × Option Reply :=
  match result with
  | .ok (store, value) => ({ s with store := store }, some (wrap (.ok value)))
  | .error e => (s, some (wrap (.error e)))

def statusJobs (fs : FileSystem) (db : Database) : Except StateError (List Job × List Job) := do
  let filter : ListJobs :=
    { projectPath := none, filePath := none, status := some .running, jobType := none, limit := 200 }
  let active ← list fs filter db
  let cancelling ← list fs { filter with status := some .cancelRequested } db
  let failed ← recentFailed fs 10 db
  .ok (active ++ cancelling, failed)

/-- An accepted cancel of the job in the slot sets the flag of its worker. -/
def signalCancel (activeJob : Option ActiveJob) (jobId : Int) (outcome : CancelResult) :
    Option ActiveJob :=
  activeJob.map fun active =>
    if outcome.changed ∧ outcome.job.status = .cancelRequested ∧ active.jobId = jobId then
      { active with cancel := true }
    else active

def handleCancel (now : Int) (jobId : Int) (s : Owned) : Owned × Option Reply :=
  match cancel now jobId s.store with
  | .ok (store, outcome) =>
    ({ store := store, activeJob := signalCancel s.activeJob jobId outcome },
      some (.cancel (.ok outcome)))
  | .error e => (s, some (.cancel (.error e)))

def handleProgress (jobId current : Int) (message : String) (s : Owned) :
    Except StateError Owned :=
  match updateProgress jobId { current := current, total := 3, message := message } s.store with
  | .ok (store, _) => .ok { s with store := store }
  | .error (.invalidTransition _ _) => .ok s
  | .error (.notFound _) => .ok s
  | .error e => .error e

/-- The terminal-state guard: only an executing job is ended. -/
def settle (now : Int) (jobId : Int) (outcome : WorkerOutcome) (status : JobStatus)
    (db : Database) : Except StateError Database :=
  match status, outcome with
  | .cancelRequested, _ => Prod.fst <$> confirmCancelled now jobId db
  | .running, .succeeded result => Prod.fst <$> completeSuccess now jobId result db
  | .running, .failed error => Prod.fst <$> completeFailure now jobId error db
  | _, _ => .ok db

def handleComplete (now : Int) (jobId : Int) (outcome : WorkerOutcome) (s : Owned) :
    Except StateError Owned := do
  let current ← get s.store jobId
  let store ← settle now jobId outcome current.status s.store
  .ok { store := store, activeJob := s.activeJob.filter (·.jobId ≠ jobId) }

def handleWorker (now : Int) (event : WorkerEvent) (s : Owned) : Except StateError Owned :=
  match event with
  | .progress jobId current message => handleProgress jobId current message s
  | .complete jobId outcome => handleComplete now jobId outcome s

/-- The arms of the loop's match, but for `Shutdown`, which leaves it. -/
def handle (now : Int) (fs : FileSystem) (command : Command) (s : Owned) :
    Except StateError (Owned × Option Reply) :=
  match command with
  | .submit request => .ok (answer s .submit (submit fs now request s.store))
  | .submitFullScan projectId => .ok (answer s .submit (submitFullScan now projectId s.store))
  | .promote jobId priority => .ok (answer s .promote (promote jobId priority s.store))
  | .get jobId => .ok (s, some (.get (get s.store jobId)))
  | .cancel jobId => .ok (handleCancel now jobId s)
  | .list filter => .ok (s, some (.list (list fs filter s.store)))
  | .status => .ok (s, some (.status (statusJobs fs s.store)))
  | .worker event => do
    let s ← handleWorker now event s
    .ok (s, none)
  | .shutdown => .ok (s, none)

/-- What a dispatch leaves outside the loop: a worker thread, or the event it
posts itself when the thread could not be spawned. -/
inductive Launch where
  | worker (jobId : Int)
  | posted (event : WorkerEvent)

def spawnFailed (message : String) : Json.Value :=
  .obj [("schema_version", .int 1), ("kind", .str "spawn_failed"), ("message", .str message),
    ("exit_code", .null), ("stage", .str "runtime_validation"), ("stderr", .str ""),
    ("stderr_truncated", .bool false), ("details", .arr [])]

/-- `spawnError` is the error of `worker::spawn`, if it has one. -/
def dispatch (now : Int) (spawnError : Option String) (s : Owned) :
    Except StateError (Owned × Option Launch) :=
  match s.activeJob with
  | some _ => .ok (s, none)
  | none => do
    let (store, claimed) ← claimNextPending now providerRust s.store
    match claimed with
    | none => .ok ({ s with store := store }, none)
    | some job =>
      let s : Owned := { store := store, activeJob := some { jobId := job.id, cancel := false } }
      match spawnError with
      | none => .ok (s, some (.worker job.id))
      | some message => .ok (s, some (.posted (.complete job.id (.failed (spawnFailed message)))))

/-- The loop with its queue, the workers that still have to report, every
worker there has been, and the jobs whose cancel was accepted. -/
structure System where
  owned : Owned
  queue : List Command
  owing : List Int
  launched : List Int
  accepted : List Int
  running : Bool

def System.launch (s : System) : Option Launch → System
  | none => s
  | some (.worker jobId) => { s with owing := s.owing ++ [jobId], launched := s.launched ++ [jobId] }
  | some (.posted event) => { s with queue := s.queue ++ [.worker event] }

def acceptedCancel : Command → Option Reply → List Int
  | .cancel jobId, some (.cancel (.ok outcome)) => if outcome.changed then [jobId] else []
  | _, _ => []

/-- The clock readings and the environment's answers one iteration meets. -/
structure Surroundings where
  now : Int
  dispatchNow : Int
  fs : FileSystem
  spawnError : Option String

/-- A command is handled, and the slot filled if it is free. -/
def System.turn (s : System) (env : Surroundings) (command : Command) (rest : List Command) :
    System :=
  match handle env.now env.fs command s.owned with
  | .error _ => { s with queue := rest, running := false }
  | .ok (owned, reply) =>
    let s := { s with owned := owned, queue := rest,
                      accepted := s.accepted ++ acceptedCancel command reply }
    match dispatch env.dispatchNow env.spawnError owned with
    | .error _ => { s with running := false }
    | .ok (owned, launch) => { s with owned := owned }.launch launch

/-- One iteration of the loop on the command taken from the queue. -/
def System.iterate (s : System) (env : Surroundings) (command : Command) (rest : List Command) :
    System :=
  match command with
  | .shutdown => { s with queue := rest, running := false }
  | command => s.turn env command rest

/-- `StateStore::open` with its recovery, and the dispatch before the loop. -/
def System.start (db : Database) (now dispatchNow : Int) (spawnError : Option String) :
    Except StateError System := do
  let (store, _) ← recover now db
  let (owned, launch) ← dispatch dispatchNow spawnError { store := store, activeJob := none }
  let s : System :=
    { owned := owned, queue := [], owing := [], launched := [], accepted := [], running := true }
  .ok (s.launch launch)

def Command.isWorker : Command → Bool
  | .worker _ => true
  | _ => false

/-- Clients and workers post in any order; a worker reports progress before
and after its one completion. -/
inductive SystemStep : System → System → Prop
  | client (s : System) (command : Command) (hclient : command.isWorker = false) :
      SystemStep s { s with queue := s.queue ++ [command] }
  | progress (s : System) (jobId current : Int) (message : String) (hlaunched : jobId ∈ s.launched)
      (hcurrent : 0 ≤ current ∧ current ≤ 3) :
      SystemStep s { s with queue := s.queue ++ [.worker (.progress jobId current message)] }
  | complete (s : System) (jobId : Int) (outcome : WorkerOutcome) (howing : jobId ∈ s.owing) :
      SystemStep s { s with queue := s.queue ++ [.worker (.complete jobId outcome)],
                            owing := s.owing.erase jobId }
  | iterate (s : System) (env : Surroundings) (command : Command) (rest : List Command)
      (hqueue : s.queue = command :: rest) (hrunning : s.running = true) :
      SystemStep s (s.iterate env command rest)

/-- The states reached from any database the store was opened on. -/
inductive Reachable : System → Prop
  | start {db : Database} {now dispatchNow : Int} {spawnError : Option String} {s : System}
      (h : System.start db now dispatchNow spawnError = .ok s) : Reachable s
  | step {s s' : System} (h : Reachable s) (hstep : SystemStep s s') : Reachable s'

end RemyCC.Scheduler
