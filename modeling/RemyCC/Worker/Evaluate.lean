import RemyCC.Json.Parse
import RemyCC.Server.Connection
import RemyCC.Text
import RemyCC.Worker.Report

/-!
# What the supervisor makes of a worker

The supervisor keeps a bounded part of what the scanner prints, reports the
stage in which the scan lock is held, and takes the job for done if every line
is a known progress event and the last one a well-formed result.
-/

namespace RemyCC.Worker

open Json (Value)
open Text Scheduler Server

def OUTPUT_LIMIT : Nat := 64 * 1024

structure Captured where
  bytes : List UInt8
  truncated : Bool
  deriving DecidableEq

/-- The home directory, the reading of bytes that need not be UTF-8, and the
message of the JSON reader. -/
structure Outside where
  home : Option String
  lossy : List UInt8 → String
  jsonError : String → String

section Capture

/-- One turn of a reader: what still fits is kept. -/
def Captured.take (c : Captured) (chunk : List UInt8) : Captured :=
  let remaining := OUTPUT_LIMIT - c.bytes.length
  { bytes := c.bytes ++ chunk.take (min chunk.length remaining)
    truncated := c.truncated || decide (remaining < chunk.length) }

/-- `read_until` the line feed, as often as there is something to read. -/
def chunks (bytes : List UInt8) : List (List UInt8) :=
  let (lines, tail) := splitLines bytes
  lines.map (· ++ [lineFeed]) ++ if tail = [] then [] else [tail]

def isLockAcquired (value : Value) : Bool :=
  ((value.get "type").bind Value.asStr == some "progress") &&
    ((value.get "stage").bind Value.asStr == some "lock_acquired")

/-- The events a line gives rise to, beside the token for the lock. -/
def lineEvents (jobId : Int) (chunk : List UInt8) : List WorkerEvent :=
  if ((text? chunk).bind Json.parse).any isLockAcquired then [.progress jobId 2 "scanning"] else []

def readStdout (jobId : Int) (bytes : List UInt8) : Captured × List WorkerEvent :=
  ((chunks bytes).foldl Captured.take ⟨[], false⟩, (chunks bytes).flatMap (lineEvents jobId))

/-- The reader of stderr, on the pieces in which the pipe hands them out. -/
def readPipe (pieces : List (List UInt8)) : Captured := pieces.foldl Captured.take ⟨[], false⟩

end Capture

section Errors

/-- An error of the supervisor, as far as it is told apart. -/
structure IoError where
  invalidData : Bool
  message : String

def exitJson : Option Int → Value
  | none => .null
  | some code => .int code

def errorValue (kind message : String) (exitCode : Option Int) (stage stderr : String)
    (stderrTruncated : Bool) (details : List Value) : Value :=
  .obj [("schema_version", .int 1), ("kind", .str kind), ("message", .str message),
    ("exit_code", exitJson exitCode), ("stage", .str stage), ("stderr", .str stderr),
    ("stderr_truncated", .bool stderrTruncated), ("details", .arr details)]

def supervisorError (error : IoError) : Value :=
  let (kind, stage) :=
    if Text.contains error.message "target_db_unavailable" then
      ("target_db_unavailable", "runtime_validation")
    else if Text.contains error.message "worker configuration" then
      ("config_invalid", "runtime_validation")
    else if Text.contains error.message "lock_timeout" then
      ("lock_timeout", "waiting_for_scan_lock")
    else if Text.contains error.message "scan_timeout" then ("scan_timeout", "scanning")
    else if Text.contains error.message "invalid_output" || error.invalidData then
      ("invalid_output", "finalizing")
    else ("spawn_failed", "runtime_validation")
  errorValue kind error.message none stage "" false []

/-- `replace`, also of the empty text, which stands before and after every character. -/
def sanitize (o : Outside) (message : String) : String :=
  match o.home with
  | none => message
  | some home =>
    if home = "" then String.ofList ('~' :: message.toList.flatMap fun c => [c, '~'])
    else replaceAll home "~" message

end Errors

section Checks

def progressKeys : List String := ["type", "stage", "elapsed_ms", "files"]

def progressStages : List String := ["lock_acquired", "parse_done", "postprocess_done"]

def validProgressLine (value : Value) : Bool :=
  match value.asObject with
  | none => false
  | some fields =>
    (fields.all fun f => progressKeys.contains f.1) &&
      ((value.get "stage").bind Value.asStr).any (progressStages.contains ·)

def hasExactKeys (value : Value) (expected : List String) : Bool :=
  match value.asObject with
  | none => false
  | some fields =>
    fields.length == expected.length && expected.all fun key => (Value.field fields key).isSome

def resultKeys : List String :=
  ["type", "schema_version", "outcome", "successful_paths", "failed_paths", "deleted_paths",
    "postprocess_complete", "errors"]

def errorKeys : List String := ["stage", "path", "message"]

/-- Indexing an object by a key that it lacks gives null. -/
def at_ (value : Value) (key : String) : Value := (value.get key).getD .null

def validStringArray (value : Value) : Bool := value.asArray.any fun items => items.all Value.isStr

def validError (item : Value) : Bool :=
  hasExactKeys item errorKeys && (item.get "stage").any Value.isStr &&
    ((item.get "path").any fun path => path.isNull || path.isStr) &&
    (item.get "message").any Value.isStr

def validErrorArray (value : Value) : Bool := value.asArray.any fun items => items.all validError

def outcomeNames : List String := ["success", "partial", "failed"]

def validScanResult (result : Value) : Bool :=
  ((result.get "outcome").bind Value.asStr).any (outcomeNames.contains ·) &&
    ((result.get "schema_version").bind Value.asU64 == some 1) &&
    validStringArray (at_ result "successful_paths") &&
    validStringArray (at_ result "failed_paths") &&
    validStringArray (at_ result "deleted_paths") &&
    (at_ result "postprocess_complete").isBool && validErrorArray (at_ result "errors")

end Checks

/-- A line loses its line feed and the carriage return before it. -/
def stripFeed (line : List Char) : List Char :=
  if line.getLast? = some '\r' then line.dropLast else line

/-- `str::lines`: an empty last line is none. -/
def textLines (text : String) : List String :=
  let pieces := splitChar '\n' text.toList
  (pieces.dropLast.map stripFeed ++ pieces.getLast?.toList.filter (· ≠ [])).map String.ofList

/-- The arguments of the scanner on which its stdout depends. -/
def workerArgs (job : State.Job) : ScanArgs where
  files := if job.jobType = .fullScan then [] else [job.filePath]
  resultJson := true
  progressJson := true

section Evaluate

variable (o : Outside) (code : Option Int) (stderr : Captured)

def refusal (message : String) : WorkerOutcome :=
  .failed (errorValue "invalid_output" message code "finalizing" (sanitize o (o.lossy stderr.bytes))
    stderr.truncated [])

/-- The two refusals that leave stderr out. -/
def bareRefusal (message : String) : WorkerOutcome :=
  .failed (errorValue "invalid_output" message code "finalizing" "" false [])

/-- What becomes of the result, once it is there and every line has been looked at. -/
def judgeResult (result : Value) : WorkerOutcome :=
  if validScanResult result then
    let outcome := (result.get "outcome").bind Value.asStr
    if (code = some 0 ∧ outcome = some "success") ∨ (code = some 2 ∧ outcome = some "partial") then
      .succeeded result
    else .failed (errorValue "worker_failed" "scanner worker failed" code "scanning"
      (sanitize o (o.lossy stderr.bytes)) stderr.truncated
      (((result.get "errors").bind Value.asArray).getD []))
  else bareRefusal code "worker scan_result fields are invalid"

def evaluateLines : Option Value → List String → Except IoError WorkerOutcome
  | none, [] => .ok (refusal o code stderr "worker emitted no scan_result")
  | some result, [] => .ok (judgeResult o code stderr result)
  | terminal, line :: rest =>
    match Json.parse line with
    | none => .error ⟨true, o.jsonError line⟩
    | some value =>
      let type := (value.get "type").bind Value.asStr
      if type = some "progress" ∧ terminal.isNone then
        if validProgressLine value then evaluateLines terminal rest
        else .ok (bareRefusal code "worker emitted an unknown progress stage")
      else if type = some "scan_result" ∧ terminal.isNone ∧ hasExactKeys value resultKeys then
        evaluateLines (some value) rest
      else .ok (refusal o code stderr "worker emitted an invalid event sequence")

def evaluate (stdout : Captured) : Except IoError WorkerOutcome :=
  if stdout.truncated then .ok (refusal o code stderr "worker stdout exceeded 65536 bytes")
  else match text? stdout.bytes with
    | none => .error ⟨true, "invalid_output"⟩
    | some text => evaluateLines o code stderr none (textLines text)

end Evaluate

end RemyCC.Worker
