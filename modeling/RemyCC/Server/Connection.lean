import RemyCC.Scheduler.Loop
import RemyCC.Server.Protocol

/-!
# One connection of the daemon

The handler reads the connection line by line and answers each line before it
takes the next. A request for the scheduler is posted to the queue of the loop
and waited for: workers report and the loop turns before, while and after the
commands ahead of it are handled.
-/

namespace RemyCC.Server

open State Scheduler

/-- What the socket yields: its bytes, and whether a fault or a time-out comes
after them instead of the end of the stream. -/
structure Stream where
  bytes : List UInt8
  cut : Bool

/-- `take(MAX_LINE_BYTES)`: past the limit the reader sees the end of the stream. -/
def Stream.limited (s : Stream) : Stream where
  bytes := s.bytes.take MAX_LINE_BYTES
  cut := s.cut && decide (s.bytes.length < MAX_LINE_BYTES)

def lineFeed : UInt8 := 10

def carriageReturn : UInt8 := 13

/-- The lines that end, without their line feed, and what is left after them. -/
def splitLines : List UInt8 → List (List UInt8) × List UInt8
  | [] => ([], [])
  | b :: rest =>
    if b = lineFeed then ([] :: (splitLines rest).1, (splitLines rest).2)
    else match splitLines rest with
      | ([], tail) => ([], b :: tail)
      | (line :: lines, tail) => ((b :: line) :: lines, tail)

def text? (bytes : List UInt8) : Option String := String.fromUTF8? ⟨bytes.toArray⟩

/-- A carriage return belongs to the line feed it stands before. -/
def stripReturn (line : List UInt8) : List UInt8 :=
  if line.getLast? = some carriageReturn then line.dropLast else line

/-- `BufRead::lines`; a line that cannot be read is `none`. -/
def Stream.lines (s : Stream) : List (Option String) :=
  let (lines, tail) := splitLines s.bytes
  lines.map (fun line => text? (stripReturn line)) ++
    if s.cut then [none] else if tail = [] then [] else [text? tail]

/-- What a running worker posts. -/
inductive Report where
  | progress (jobId current : Int) (message : String)
  | complete (jobId : Int) (outcome : WorkerOutcome)

def report (s : System) : Report → System
  | .progress jobId current message =>
    if jobId ∈ s.launched ∧ 0 ≤ current ∧ current ≤ 3 then
      { s with queue := s.queue ++ [.worker (.progress jobId current message)] }
    else s
  | .complete jobId outcome =>
    if jobId ∈ s.owing then
      { s with queue := s.queue ++ [.worker (.complete jobId outcome)],
               owing := s.owing.erase jobId }
    else s

/-- The reports posted up to an iteration of the loop, and what it meets. -/
structure Turn where
  reports : List Report
  env : Surroundings

def work (s : System) (turn : Turn) : System :=
  let s := turn.reports.foldl report s
  match s.queue with
  | [] => s
  | command :: rest => if s.running then s.iterate turn.env command rest else s

/-- The turns of the loop before a command is posted, those it takes over the
commands ahead of it, and the one over the command itself. -/
structure Wait where
  idle : List Turn
  ahead : Nat → Turn
  own : Turn

def workAhead (turns : Nat → Turn) : Nat → System → System
  | 0, s => s
  | n + 1, s => work (workAhead turns n s) (turns n)

def replyTo (env : Surroundings) (command : Command) (owned : Owned) : Option Reply :=
  match handle env.now env.fs command owned with
  | .ok (_, reply) => reply
  | .error _ => none

def replyClosed : StateError := .corrupt "scheduler reply channel is closed"

/-- `SchedulerHandle::request`. -/
def request (s : System) (wait : Wait) (command : Command) : System × Except StateError Reply :=
  let s := wait.idle.foldl work s
  if s.running then
    let posted := { s with queue := s.queue ++ [command] }
    let s := wait.own.reports.foldl report (workAhead wait.ahead s.queue.length posted)
    match s.running, s.queue with
    | true, command :: rest =>
      (s.iterate wait.own.env command rest,
        match replyTo wait.own.env command s.owned with
        | some reply => .ok reply
        | none => .error replyClosed)
    | _, _ => (s, .error replyClosed)
  else (s, .error (.corrupt "scheduler channel is closed"))

inductive OpenOutcome where
  | ready (url token : String)
  | conflict (mode : String) (target : Option String) (pid port : Nat)
  | spawnFailed (diagnostic : String)

/-- The handler's surroundings while it deals with one line. -/
structure Meeting where
  wait : Wait
  opened : String → Option String → OpenOutcome
  ui : Option UiStatus

inductive ConnectionOutcome where
  | continue
  | shutdown
  deriving DecidableEq

/-- What the daemon serves its connections with; `decode` is the derived
deserialiser of a request, `display` the text of a failure of SQLite. -/
structure Host where
  token : String
  daemonVersion : String
  scanner : ScannerStatus
  decode : String → Option Request
  display : SqliteError → String

/-- What becomes of one line. -/
inductive Verdict where
  | say (response : Response)
  | close (outcome : ConnectionOutcome) (written : List Response)
  | ask (command : Command) (respond : Reply → Except StateError Response)

def versionError : Option (Nat × Nat) → Option Response
  | none => none
  | some (protocol, schema) =>
    if protocol ≠ PROTOCOL_VERSION then
      some (.error "incompatible_protocol" ("client protocol " ++ toString protocol ++
        "; daemon protocol " ++ toString PROTOCOL_VERSION))
    else if schema ≠ STATE_SCHEMA_VERSION then
      some (.error "incompatible_state_schema" ("client state schema " ++ toString schema ++
        "; daemon state schema " ++ toString STATE_SCHEMA_VERSION))
    else none

def openConfigUi (opened : String → Option String → OpenOutcome) (mode : String)
    (target : Option String) : Response :=
  if (mode = "global" ∧ target = none) ∨ (mode = "project" ∧ target ≠ none) then
    match opened mode target with
    | .ready url token => .configUi url token
    | .conflict mode target pid port =>
      .error "ui_conflict" ("config UI already running with mode=" ++ mode ++ " target=" ++
        target.getD "-" ++ " (pid " ++ toString pid ++ ", port " ++ toString port ++ ")")
    | .spawnFailed diagnostic => .error "ui_spawn_failed" diagnostic
  else .error "invalid_request" "mode must be \"global\" without target or \"project\" with target"

namespace Host

variable (host : Host)

/-- A fatal error leaves the handler; any other is told to the client. -/
def relay {α : Type} (result : Except StateError α) (wrap : α → Response) :
    Except StateError Response :=
  match result with
  | .ok value => .ok (wrap value)
  | .error e => if isFatal e then .error e else .ok (stateErrorResponse host.display e)

def listLimit (limit : Option Nat) : Nat := max 1 (min (limit.getD 50) 200)

def perform (meeting : Meeting) : Request → Verdict
  | .hello _ _ => .say (.ofHello host.daemonVersion)
  | .ping _ => .say .ack
  | .shutdown _ => .close .shutdown [.ack]
  | .submitJob _ _ _ projectPath dbPath filePath priority =>
    .ask (.submit { projectPath := projectPath, dbPath := dbPath, filePath := filePath,
                    priority := priority }) fun
      | .submit result => host.relay result fun r => .submitted r.job r.created
      | _ => .error replyClosed
  | .promoteJob _ _ _ jobId priority =>
    .ask (.promote jobId priority) fun
      | .promote result => host.relay result fun r => .promoted r.job r.changed
      | _ => .error replyClosed
  | .getJob _ _ _ jobId =>
    .ask (.get jobId) fun
      | .get result => host.relay result .job
      | _ => .error replyClosed
  | .cancelJob _ _ _ jobId =>
    .ask (.cancel jobId) fun
      | .cancel result => host.relay result fun r => .cancelled r.job r.changed
      | _ => .error replyClosed
  | .listJobs _ _ _ projectPath filePath status jobType limit =>
    .ask (.list { projectPath := projectPath, filePath := filePath, status := status,
                  jobType := jobType, limit := listLimit limit }) fun
      | .list result => host.relay result fun jobs =>
          .jobList jobs (listLimit limit)
            { projectPath := projectPath, filePath := filePath, status := status,
              jobType := jobType }
      | _ => .error replyClosed
  | .statusSnapshot _ _ _ =>
    .ask .status fun
      | .status result => host.relay result fun r => .status r.1 r.2 host.scanner meeting.ui
      | _ => .error replyClosed
  | .openConfigUi _ _ _ mode target => .say (Server.openConfigUi meeting.opened mode target)

def judge (meeting : Meeting) : Option String → Verdict
  | none => .close .continue []
  | some line =>
    match host.decode line with
    | none => .say (.error "invalid_request" "request is not valid protocol JSON")
    | some request =>
      if request.token ≠ host.token then
        .close .continue [.error "bad_token" "session token does not match"]
      else match versionError request.businessVersions with
        | some response => .say response
        | none => host.perform meeting request

end Host

/-- What a connection leaves: the scheduler, the responses written, and what
`handle_connection` returns. -/
structure Served where
  system : System
  written : List Response
  outcome : Except StateError ConnectionOutcome

def Served.after (response : Response) (served : Served) : Served :=
  { served with written := response :: served.written }

/-- The loop over the lines, from the `n`-th on. -/
def converse (host : Host) (meetings : Nat → Meeting) :
    Nat → List (Option String) → System → Served
  | _, [], s => { system := s, written := [], outcome := .ok .continue }
  | n, line :: rest, s =>
    match host.judge (meetings n) line with
    | .say response => (converse host meetings (n + 1) rest s).after response
    | .close outcome written => { system := s, written := written, outcome := .ok outcome }
    | .ask command respond =>
      match request s (meetings n).wait command with
      | (s, .error e) => { system := s, written := [], outcome := .error e }
      | (s, .ok reply) =>
        match respond reply with
        | .error e => { system := s, written := [], outcome := .error e }
        | .ok response => (converse host meetings (n + 1) rest s).after response

def handleConnection (host : Host) (meetings : Nat → Meeting) (stream : Stream) (s : System) :
    Served :=
  converse host meetings 0 stream.limited.lines s

end RemyCC.Server
