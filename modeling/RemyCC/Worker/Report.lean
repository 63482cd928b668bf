import RemyCC.Json.Print
import RemyCC.Relational.Query

/-!
# What a scan prints

A scan reports the stages it gets through, each as a line of JSON, and its last
line is its result. The steps of the two arms answer with an error message or
with what the arm goes on with; what they do to the database is not looked at.
-/

namespace RemyCC.Worker

open Json (Value)
open Relational

structure StageError where
  stage : String
  path : Option String
  message : String
  deriving DecidableEq

/-- `partially` is the source's `Partial`. -/
inductive RunStatus where
  | success
  | partially
  | failed
  deriving DecidableEq

def RunStatus.value : RunStatus → String
  | .success => "success"
  | .partially => "partial"
  | .failed => "failed"

def RunStatus.exitCode : RunStatus → Int
  | .success => 0
  | .partially => 2
  | .failed => 1

structure ScanResult where
  status : RunStatus
  discoveredPaths : List String
  successfulPaths : List String
  failedPaths : List String
  deletedPaths : List String
  errors : List StageError
  postprocessComplete : Bool

def ScanResult.fromParts (discovered successful failed deleted : List String)
    (errors : List StageError) (postprocessComplete : Bool) : ScanResult where
  status :=
    if errors.isEmpty then .success
    else if !successful.isEmpty || !deleted.isEmpty then .partially
    else .failed
  discoveredPaths := sortedSet discovered
  successfulPaths := sortedSet successful
  failedPaths := sortedSet failed
  deletedPaths := sortedSet deleted
  errors := errors
  postprocessComplete := postprocessComplete

def pathJson : Option String → Value
  | none => .null
  | some path => .str path

def errorJson (e : StageError) : Value :=
  .obj [("stage", .str e.stage), ("path", pathJson e.path), ("message", .str e.message)]

def pathsJson (paths : List String) : Value := .arr (paths.map .str)

def ScanResult.toJson (r : ScanResult) : Value :=
  .obj [("type", .str "scan_result"), ("schema_version", .int 1), ("outcome", .str r.status.value),
    ("successful_paths", pathsJson r.successfulPaths), ("failed_paths", pathsJson r.failedPaths),
    ("deleted_paths", pathsJson r.deletedPaths),
    ("postprocess_complete", .bool r.postprocessComplete), ("errors", .arr (r.errors.map errorJson))]

def ScanResult.toJsonLine (r : ScanResult) : String := Json.print r.toJson

/-- A progress event, but for the time. -/
structure Stage where
  name : String
  files : Option UInt64
  deriving DecidableEq

def Stage.toJson (stage : Stage) (elapsedMs : UInt64) : Value :=
  .obj ([("type", .str "progress"), ("stage", .str stage.name), ("elapsed_ms", .int elapsedMs.toNat)]
    ++ match stage.files with
      | none => []
      | some files => [("files", .int files.toNat)])

section Reports

/-- A computation that reports stages until it is through or stopped by an error. -/
structure Reports (α : Type) where
  stages : List Stage
  result : Except String α

variable {α β : Type}

def Reports.bind (x : Reports α) (f : α → Reports β) : Reports β :=
  match x.result with
  | .ok a => ⟨x.stages ++ (f a).stages, (f a).result⟩
  | .error message => ⟨x.stages, .error message⟩

instance : Monad Reports where
  pure a := ⟨[], .ok a⟩
  bind := Reports.bind

def report (name : String) (files : Option UInt64) : Reports Unit := ⟨[⟨name, files⟩], .ok ()⟩

/-- `map_err` with a format that puts the context in front of the error. -/
def attempt (context : String) (answer : Except String α) : Reports α :=
  ⟨[], answer.mapError (context ++ ·)⟩

end Reports

/-- What the pool sends for a file; with its facts goes the answer of their write. -/
inductive FileOutcome where
  | facts (relPath : String) (written : Except String Unit)
  | failed (relPath message : String)

structure Tally where
  written : UInt64
  successful : List String
  failed : List String
  errors : List StageError

/-- The outcome of a file is put down; only the answer of the write can end the scan. -/
def Tally.record (t : Tally) : FileOutcome → Reports Tally
  | .facts relPath written => do
    attempt ("write failed for " ++ relPath ++ ": ") written
    pure { t with successful := t.successful ++ [relPath] }
  | .failed relPath message =>
    pure { t with errors := t.errors ++ [⟨"file_scan", some relPath, message⟩],
                  failed := t.failed ++ [relPath] }

def Tally.count (t : Tally) (outcome : FileOutcome) : Reports Tally := do
  let t ← t.record outcome
  let t := { t with written := t.written + 1 }
  if t.written % 250 = 0 then report "write" (some t.written)
  pure t

def joinPool (panicked : Bool) : Except String Unit :=
  if panicked then .error "parse worker panicked; scan transaction rolled back" else .ok ()

/-- The stored files that are deleted, in their order; `delete` tells whether there was a row. -/
def sweep (delete : String → Except String Bool) : List String → Reports (List String)
  | [] => pure []
  | rel :: rest => do
    let there ← attempt "delete failed: " (delete rel)
    let deleted ← sweep delete rest
    pure (if there then rel :: deleted else deleted)

structure FullSteps where
  config : Except String Unit
  lock : Except String Unit
  discovered : Except String (List String)
  opened : Except String Unit
  begun : Except String Unit
  indexesDropped : Except String Unit
  outcomes : List FileOutcome
  panicked : Bool
  stored : Except String (List String)
  delete : String → Except String Bool
  indexesRebuilt : Except String Unit
  postprocessed : Except String Unit
  metaWritten : Except String Unit
  sourceCommitWritten : Except String Unit
  committed : Except String Unit

/-- What `scan_full` does before the outcomes of the pool come in. -/
def scanOpening (s : FullSteps) : Reports (List String) := do
  attempt "" s.config
  attempt "" s.lock
  report "lock_acquired" none
  let discovered ← attempt "discovery failed: " s.discovered
  attempt "" s.opened
  attempt "begin failed: " s.begun
  attempt "index drop failed: " s.indexesDropped
  pure discovered

def scanClosing (s : FullSteps) (discovered : List String) (t : Tally) : Reports ScanResult := do
  attempt "" (joinPool s.panicked)
  report "parse_done" (some t.written)
  let stored ← attempt "path query failed: " s.stored
  let deleted ← sweep s.delete (stored.filter (· ∉ discovered))
  attempt "index rebuild failed: " s.indexesRebuilt
  attempt "postprocess failed: " s.postprocessed
  report "postprocess_done" none
  attempt "meta write failed: " s.metaWritten
  attempt "source commit write failed: " s.sourceCommitWritten
  attempt "commit failed: " s.committed
  pure (.fromParts discovered t.successful t.failed deleted t.errors true)

def scanFull (s : FullSteps) : Reports ScanResult := do
  let discovered ← scanOpening s
  let t ← s.outcomes.foldlM Tally.count ⟨0, [], [], []⟩
  scanClosing s discovered t

structure FileSteps where
  config : Except String Unit
  lock : Except String Unit
  requested : List String
  opened : Except String Bool
  discovered : Except String (List String)
  begun : Except String Unit
  stored : Except String (List String)
  excluded : String → Bool
  delete : String → Except String Bool
  invalid : Except String (List String)
  present : String → Bool
  resolves : String → Bool
  outcomes : List FileOutcome
  panicked : Bool
  postprocessed : Except String Unit
  metaWritten : Except String Unit
  committed : Except String Unit

/-- The files of a project whose database had to be rebuilt. -/
def FileSteps.rediscovered (s : FileSteps) (rebuilt : Bool) : Reports (List String) :=
  if rebuilt then attempt "discovery failed: " s.discovered else pure []

/-- The explicit files, the whole discovered set if the database had to be rebuilt. -/
def scanFiles (s : FileSteps) : Reports ScanResult := do
  attempt "" s.config
  attempt "" s.lock
  report "lock_acquired" none
  let rebuilt ← attempt "" s.opened
  let discovered ← s.rediscovered rebuilt
  let requested := s.requested ++ discovered
  attempt "begin failed: " s.begun
  let stored ← attempt "path query failed: " s.stored
  let swept ← sweep s.delete (stored.filter s.excluded)
  let invalid ← attempt "" s.invalid
  let targets := sortedSet
    ((requested ++ invalid).filter fun rel => !(s.excluded rel && requested.contains rel))
  let gone ← sweep s.delete (targets.filter (!s.present ·))
  let untouched := requested.filter s.excluded ++
    (targets.filter fun rel => s.present rel && !s.resolves rel) ++ targets.filter (!s.present ·)
  let t ← s.outcomes.foldlM Tally.record ⟨0, untouched, [], []⟩
  attempt "" (joinPool s.panicked)
  report "parse_done" none
  attempt "postprocess failed: " s.postprocessed
  report "postprocess_done" none
  attempt "meta write failed: " s.metaWritten
  attempt "commit failed: " s.committed
  pure (.fromParts targets t.successful t.failed (swept ++ gone) t.errors true)

structure ScanArgs where
  files : List String
  resultJson : Bool
  progressJson : Bool

/-- What the steps of either arm answer; the root is resolved before. -/
structure Steps where
  root : Except String Unit
  full : FullSteps
  files : FileSteps

def scan (args : ScanArgs) (s : Steps) : Reports ScanResult := do
  attempt "" s.root
  if args.files.isEmpty then scanFull s.full else scanFiles s.files

/-- The result that is printed, also for a scan that an error has ended. -/
def resultOf (args : ScanArgs) : Except String ScanResult → ScanResult
  | .ok result => result
  | .error message => .fromParts [] [] args.files [] [⟨"worker", none, message⟩] false

/-- `emit_progress_json`, with what the clock shows at each of the events. -/
def progressLines (enabled : Bool) (elapsedMs : Nat → UInt64) (stages : List Stage) : List String :=
  if enabled then stages.mapIdx fun i stage => Json.print (stage.toJson (elapsedMs i)) else []

def resultLines (args : ScanArgs) (result : Except String ScanResult) : List String :=
  if args.resultJson then [(resultOf args result).toJsonLine]
  else match result with
    | .ok r => ["STRUCT_SCAN_RESULT status=" ++ r.status.value ++ " successful=" ++
        toString r.successfulPaths.length ++ " failed=" ++ toString r.failedPaths.length]
    | .error _ => []

/-- What `run_scan` prints to stdout and returns. -/
structure Printed where
  lines : List String
  exitCode : Int

def runScan (args : ScanArgs) (elapsedMs : Nat → UInt64) (s : Steps) : Printed :=
  let outcome := scan args s
  { lines := progressLines args.progressJson elapsedMs outcome.stages ++
      resultLines args outcome.result
    exitCode := (resultOf args outcome.result).status.exitCode }

end RemyCC.Worker
