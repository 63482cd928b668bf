import RemyCC.Logging
import RemyCC.Server.Connection
import RemyCC.Worker.Evaluate

/-!
# The host of the config UI

The daemon runs at most one child that serves the config UI. It learns the
port and the token from the child's first line and keeps them for as long as
the child lives. That the child has ended is noticed only when the next request
comes.
-/

namespace RemyCC.Ui

open Json (Value)
open Worker Server
open Logging (LogCall)

def DIAGNOSTIC_TAIL_BYTES : Nat := 2048

def OUTPUT_CAP : Nat := 64 * 1024

/-- What comes of the child's first line in the time it has for it. -/
inductive Heard where
  | nothing
  | ended
  | unreadable (error : String)
  | line (text : String)

/-- What a request meets that has to spawn a child. -/
structure Setting where
  scriptPresent : Bool
  spawnError : Option String
  heard : Heard
  stderr : List UInt8

/-- The last two fields of the source, the process and its standard input, are
one here: the number of the child. -/
structure UiInstance where
  pid : Nat
  port : Nat
  token : String
  mode : String
  target : Option String
  child : Nat
  deriving DecidableEq

inductive OpenOutcome where
  | ready (url token : String) (created : Bool)
  | conflict (mode : String) (target : Option String) (pid port : Nat)
  | spawnFailed (diagnostic : String)
  deriving DecidableEq

/-- A spawn either creates no process, or kills the one it created and waits for
its end, or hands over what the child has reported. -/
inductive Launch where
  | unstarted (diagnostic : String)
  | killed (diagnostic : String)
  | reported (pid port : Nat) (token : String)
  deriving DecidableEq

structure UiHost where
  python : Option String
  script : String
  reportTimeout : Nat
  outside : Outside

namespace UiHost

variable (host : UiHost)

/-- `read_tail`: the end of the first bytes. -/
def readTail (bytes : List UInt8) : String :=
  let bytes := bytes.take OUTPUT_CAP
  host.outside.lossy (bytes.drop (bytes.length - DIAGNOSTIC_TAIL_BYTES))

/-- What the thread that reads the first line sends in time, if anything. -/
def heardValue : Heard → Option (Except String Value)
  | .nothing => none
  | .ended => some (.error "child exited without a report line")
  | .unreadable error => some (.error ("cannot read the report line: " ++ error))
  | .line text =>
    match Json.parse text with
    | some value => some (.ok value)
    | none => some (.error ("report line is not valid JSON: " ++ host.outside.jsonError text))

end UiHost

def launchOf (value : Value) : Launch :=
  if hasExactKeys value ["port", "token", "pid"] then
    match (value.get "port").bind Value.asU64, (value.get "token").bind Value.asStr,
      (value.get "pid").bind Value.asU64 with
    | some port, some token, some pid =>
      if port < 2 ^ 16 ∧ pid < 2 ^ 32 then
        if token = "" then .killed "report line token is empty" else .reported pid port token
      else .killed "report line port/pid are out of range"
    | _, _, _ => .killed "report line fields are mistyped"
  else .killed "report line keys are not exactly \x7bport, token, pid\x7d"

def UiHost.spawn (host : UiHost) (setting : Setting) : Launch :=
  match host.python with
  | none =>
    .unstarted ("no usable Python interpreter found; Python 3.10+ is a runtime " ++
      "prerequisite for the config UI")
  | some python =>
    if setting.scriptPresent = false then
      .unstarted ("deployed config_ui.py is missing at " ++ host.script ++
        "; run remy-cc install first")
    else match setting.spawnError with
      | some error => .unstarted ("cannot spawn " ++ python ++ ": " ++ error)
      | none =>
        match host.heardValue setting.heard with
        | none =>
          .killed ("config UI did not report within " ++ toString host.reportTimeout ++
            "s; killed")
        | some (.error reason) =>
          .killed (reason ++ "; stderr tail: " ++
            sanitize host.outside (host.readTail setting.stderr))
        | some (.ok value) => launchOf value

/-- The slot and the log of the host; beside them the children that run, how
many there have been, and those whose standard input has been closed. -/
structure UiState where
  slot : Option UiInstance
  living : List Nat
  spawned : Nat
  signalled : List Nat
  log : List LogCall

def UiState.start : UiState where
  slot := none
  living := []
  spawned := 0
  signalled := []
  log := []

def urlOf (port : Nat) : String := "http://127.0.0.1:" ++ toString port

namespace UiInstance

def status (i : UiInstance) : UiStatus where
  pid := i.pid
  port := i.port
  mode := i.mode
  target := i.target

def startedCall (i : UiInstance) : LogCall where
  level := "info"
  event := "config_ui_started"
  extra := .obj [("pid", .int i.pid), ("port", .int i.port), ("mode", .str i.mode),
    ("target", pathJson i.target)]

def stoppedCall (i : UiInstance) : LogCall where
  level := "info"
  event := "config_ui_stopped"
  extra := .obj [("pid", .int i.pid)]

def stillRunningCall (i : UiInstance) : LogCall where
  level := "warning"
  event := "config_ui_still_running_at_shutdown"
  extra := .obj [("pid", .int i.pid)]

/-- What a request for this mode and target is told while the instance serves. -/
def answer (i : UiInstance) (mode : String) (target : Option String) : OpenOutcome :=
  if i.mode = mode ∧ i.target = target then .ready (urlOf i.port) i.token false
  else .conflict i.mode i.target i.pid i.port

end UiInstance

def spawnFailedCall (diagnostic : String) : LogCall where
  level := "warning"
  event := "config_ui_spawn_failed"
  extra := .obj [("diagnostic", .str diagnostic)]

def reapExited (s : UiState) : UiState :=
  match s.slot with
  | none => s
  | some i => if i.child ∈ s.living then s else { s with slot := none }

def status (s : UiState) : UiState × Option UiStatus :=
  let s := reapExited s
  (s, s.slot.map UiInstance.status)

def UiHost.openUi (host : UiHost) (mode : String) (target : Option String) (setting : Setting)
    (s : UiState) : UiState × OpenOutcome :=
  let s := reapExited s
  match s.slot with
  | some i => (s, i.answer mode target)
  | none =>
    match host.spawn setting with
    | .unstarted diagnostic =>
      ({ s with log := s.log ++ [spawnFailedCall diagnostic] }, .spawnFailed diagnostic)
    | .killed diagnostic =>
      ({ s with spawned := s.spawned + 1, log := s.log ++ [spawnFailedCall diagnostic] },
        .spawnFailed diagnostic)
    | .reported pid port token =>
      let i : UiInstance := { pid := pid, port := port, token := token, mode := mode,
                              target := target, child := s.spawned }
      ({ s with slot := some i, living := i.child :: s.living, spawned := s.spawned + 1,
                log := s.log ++ [i.startedCall] },
        .ready (urlOf port) token true)

/-- `leaves` tells whether a child that still runs ends while it is waited for. -/
def shutdown (leaves : Bool) (s : UiState) : UiState :=
  match s.slot with
  | none => s
  | some i =>
    let s := { s with slot := none, signalled := i.child :: s.signalled }
    if i.child ∈ s.living ∧ leaves = false then { s with log := s.log ++ [i.stillRunningCall] }
    else
      { s with living := s.living.filter (· ≠ i.child), log := s.log ++ [i.stoppedCall] }

inductive Event where
  | exit (child : Nat)
  | status
  | openUi (mode : String) (target : Option String) (setting : Setting)
  | shutdown (leaves : Bool)

inductive Answer where
  | silent
  | status (ui : Option UiStatus)
  | outcome (outcome : OpenOutcome)

def UiHost.step (host : UiHost) (s : UiState) : Event → UiState × Answer
  | .exit child => ({ s with living := s.living.filter (· ≠ child) }, .silent)
  | .status => ((status s).1, .status (status s).2)
  | .openUi mode target setting =>
    ((host.openUi mode target setting s).1, .outcome (host.openUi mode target setting s).2)
  | .shutdown leaves => (shutdown leaves s, .silent)

def UiHost.run (host : UiHost) : List Event → UiState → UiState × List Answer
  | [], s => (s, [])
  | e :: events, s =>
    let r := host.step s e
    ((host.run events r.1).1, r.2 :: (host.run events r.1).2)

end RemyCC.Ui
