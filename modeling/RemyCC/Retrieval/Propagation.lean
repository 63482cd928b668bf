import RemyCC.Retrieval.Ledger

/-!
# The propagation pass

A parent whose children have changed is judged and, if the change matters to it,
summarised anew; then its counter goes back to nought. Each access to the tables
and each call of the LLM is a step, and other writers may come in between.
-/

namespace RemyCC.Retrieval

open Relational Text Index Python

/-- The short and the full text of a summary. -/
abbrev Texts := List Nat × Option (List Nat)

section Generation

/-- What the tools ask of a payload; its measure is none where `len` raises. -/
structure PayloadCodec extends PayloadReader where
  dumps : Payload → String
  short : Payload → Option (List Nat)
  measure : Payload → Option Nat

/-- What a call of the LLM comes back with. -/
inductive Reply where
  | raised
  | nothing
  | text (raw : String)

inductive LengthVerdict where
  | ok
  | oversizedWarn
  | overRetry
  deriving DecidableEq, Repr

/-- The factors 1.2 and 1.5 of the soft limit; a float product with them is whole where the
exact one is. -/
def lengthVerdict (measured softLimit : Nat) : LengthVerdict :=
  if measured * 5 ≤ softLimit * 6 then .ok
  else if measured * 2 ≤ softLimit * 3 then .oversizedWarn
  else .overRetry

variable (codec : PayloadCodec)

/-- `_try_parse_payload`; none where it raises. -/
def tryParsePayload (raw : String) : Option (Option codec.Payload) :=
  if "Error:".toList.isPrefixOf raw.toList then some none
  else match codec.loads raw with
    | .ok payload => some (some payload)
    | .error .decode => some none
    | .error .raised => none

def parseReply : Reply → Option (Option codec.Payload)
  | .raised => none
  | .nothing => some none
  | .text raw => tryParsePayload codec raw

def hasValidShort (payload : codec.Payload) : Bool := (codec.short payload).any (strip · ≠ [])

def Reply.failed : Reply → Bool
  | .text raw => "Error:".toList.isPrefixOf raw.toList
  | _ => true

/-- A payload without a short text gives one more call its chance. -/
def validPayload (payload : codec.Payload) (retry : Reply) : Option (Option codec.Payload) :=
  if hasValidShort codec payload then some (some payload)
  else (parseReply codec retry).map fun again => again.filter (hasValidShort codec)

/-- The last call, for a payload that is too long. -/
def generateAgain (softLimit : Nat) (payload : codec.Payload) (second : Reply) :
    Option (Option codec.Payload × Status) := do
  match ← parseReply codec second with
  | none => return (some payload, .oversizedHard)
  | some shorter =>
    if hasValidShort codec shorter then
      let measured ← codec.measure shorter
      match lengthVerdict measured softLimit with
      | .ok => return (some shorter, .ok)
      | _ => return (some shorter, .oversizedHard)
    else return (none, .corrupt)

/-- `generate_with_limit`, given the replies of the calls it makes; none where it raises. -/
def generateWithLimit (softLimit : Nat) (first retry second : Reply) :
    Option (Option codec.Payload × Status) := do
  match ← parseReply codec first with
  | none => return (none, if first.failed then .pending else .corrupt)
  | some payload =>
    match ← validPayload codec payload retry with
    | none => return (none, .corrupt)
    | some payload =>
      let measured ← codec.measure payload
      match lengthVerdict measured softLimit with
      | .ok => return (some payload, .ok)
      | .oversizedWarn => return (some payload, .oversizedWarn)
      | .overRetry => generateAgain codec softLimit payload second

end Generation

section Children

/-- The nodes that `build_child_changes_payload` looks at. -/
def childrenOf (d : Database) : Node → List Node
  | ⟨.file, path⟩ =>
    (d.symbols.rows.filter (·.filePath == path)).map fun s => symbolNode path s.name
  | ⟨.cluster, name⟩ =>
    (d.clusters.rows.filter (·.name == name)).flatMap fun k =>
      (d.members.filter (·.clusterId == k.id)).map fun m => fileNode m.filePath
  | ⟨.symbol, _⟩ => []

/-- Whether a loaded payload is the dict of these two texts and nothing else. -/
def isTexts (payload : Loaded) (texts : Texts) : Bool :=
  match payload with
  | .dict members =>
    members.all (fun m =>
      m.1 == "short".toList.map Char.toNat || m.1 == "full".toList.map Char.toNat) &&
      ((Loaded.get members "short").bind Loaded.asStr == some texts.1) &&
      match Loaded.get members "full" with
      | some (.str full) => texts.2 == some full
      | some .null => texts.2 == none
      | _ => false
  | _ => false

variable (limits : Limits)

namespace Ledger

/-- The texts of the current summary. -/
def textsOf (l : Ledger) (node : Node) : Option Texts := do
  let current ← l.selectCurrent limits node
  let _ ← current.id
  let short ← current.short
  return (short, current.full)

/-- The version before the one with a number, whatever its status. -/
def previous? (l : Ledger) (node : Node) (version : Nat) : Option SummaryVersion :=
  (versionsOf node l.summaries.rows).find? (·.version < version)

/-- The payload to compare with; none of a payload where there is none or it is no JSON. -/
def loadPrevious (l : Ledger) (node : Node) (version : Nat) : Except LoadError (Option Loaded) :=
  match (l.previous? node version).bind (·.summary) with
  | none => .ok none
  | some text =>
    if text = "" then .ok none
    else match loads limits text with
      | .ok payload => .ok (some payload)
      | .error .decode => .ok none
      | .error .raised => .error .raised

structure ChildChange where
  child : Node
  oldSummary : Option Loaded
  newSummary : Texts

/-- The change of one child, if there is any; none where the tools raise. -/
def changeOf (l : Ledger) (child : Node) : Option (Option ChildChange) := do
  let current ← l.selectCurrent limits child
  match current.id, current.version, current.short with
  | some _, some version, some short =>
    let old ← (l.loadPrevious limits child version).toOption
    if old.any (isTexts · (short, current.full)) then return none
    else return some ⟨child, old, (short, current.full)⟩
  | _, _, _ => return none

/-- `build_child_changes_payload`. -/
def childChanges (l : Ledger) (parent : Node) : Option (List ChildChange) :=
  ((childrenOf l.index parent).mapM (l.changeOf limits)).map fun changes => changes.filterMap id

theorem zeroed_node (node : Node) (r : NodeChangeCounter) :
    (if r.node = node then { r with childChangeCount := 0, leafDescendantCount := 0 } else r).node =
      r.node := by
  split <;> rfl

/-- `zero_counter`, but for the time of the last forced one. -/
def zeroCounter (l : Ledger) (node : Node) : Ledger :=
  { l with
    counters := l.counters.update
      (fun r =>
        if r.node = node then { r with childChangeCount := 0, leafDescendantCount := 0 } else r)
      (zeroed_node node) }

/-- `collect_propagation_candidates`. -/
def candidates (l : Ledger) (kind : NodeKind) : Option (List Node) :=
  let nodes := (l.counters.rows.filter fun r =>
    r.node.kind == kind && decide (0 < r.childChangeCount)).map NodeChangeCounter.node
  (nodes.mapM fun node => (l.selectCurrent limits node).map fun current =>
    if current.id.isSome then some node else none).map fun found => found.filterMap id

end Ledger

end Children

section Pass

/-- What a step takes from outside: the LLM, the clock and the configuration. -/
structure World where
  usable : Bool
  intervalDue : Bool
  thresholdPrimary : Int
  thresholdBackup : Int
  softLimit : Nat
  /-- The verdict of `judge_propagation`; none where it raises. -/
  verdict : Option Bool
  first : Reply
  retry : Reply
  second : Reply

/-- `force_recompute_check`. -/
def forceRecompute (l : Ledger) (node : Node) (w : World) : Bool :=
  match l.counter? node with
  | none => false
  | some r =>
    (decide (0 < w.thresholdPrimary) && decide (w.thresholdPrimary ≤ r.childChangeCount)) ||
      (decide (0 ≤ w.thresholdBackup) && decide (w.thresholdBackup ≤ r.leafDescendantCount)) ||
      w.intervalDue

/-- The candidates of a level that are still to be visited. -/
structure Agenda where
  kind : NodeKind
  waiting : List Node

inductive Phase where
  | idle
  | collecting (kind : NodeKind)
  | visiting (agenda : Agenda)
  | comparing (agenda : Agenda) (parent : Node)
  | judging (agenda : Agenda) (parent : Node)
  | asking (agenda : Agenda) (parent : Node)
  /-- The LLM has answered to the summaries that the children had when they were read. -/
  | storing (agenda : Agenda) (parent : Node) (payload : String) (status : Status)
    (sources : Node → Option Texts)
  | resetting (agenda : Agenda) (parent : Node)

/-- The tables and the pass, and beside them which texts the children of a node had when its
current version was written. -/
structure Course where
  ledger : Ledger
  phase : Phase
  written : Node → Node → Option Texts

inductive CourseEvent where
  | write (c : WriteCall)
  | start (usable : Bool)
  | advance (w : World)
  | crash

variable (g : Digests) (limits : Limits) (codec : PayloadCodec)

def nextLevel : NodeKind → Phase
  | .file => .collecting .cluster
  | _ => .idle

namespace Course

/-- The texts beside the tables after a version has been written. -/
def noteWritten (s : Course) (c : WriteCall) (l : Ledger) : Node → Node → Option Texts :=
  if (l.selectCurrent limits c.node).bind ToolSummary.version =
      some (s.ledger.topVersion c.node + 1)
  then Function.update s.written c.node (l.textsOf limits)
  else s.written

/-- `write_summary_version`; none where it raises. -/
def write (c : WriteCall) (s : Course) : Option Course :=
  (s.ledger.writeSummaryVersion g limits codec.toPayloadReader c).map fun result =>
    { s with ledger := result.1, written := s.noteWritten limits c result.1 }

/-- What the summarizer makes of the children it reads; none where something raises. -/
def generate (s : Course) (parent : Node) (w : World) :
    Option (Option codec.Payload × Status) := do
  let _ ← (childrenOf s.ledger.index parent).mapM (s.ledger.selectCurrent limits)
  generateWithLimit codec w.softLimit w.first w.retry w.second

def ask (s : Course) (agenda : Agenda) (parent : Node) (w : World) : Phase :=
  match s.generate limits codec parent w with
  | none => .idle
  | some (some payload, status) =>
    if status.available then
      .storing agenda parent (codec.dumps payload) status (s.ledger.textsOf limits)
    else .visiting agenda
  | some (none, _) => .visiting agenda

def compare (s : Course) (agenda : Agenda) (parent : Node) : Phase :=
  match s.ledger.selectCurrent limits parent, s.ledger.childChanges limits parent with
  | some _, some [] => .resetting agenda parent
  | some _, some _ => .judging agenda parent
  | _, _ => .idle

def judge (agenda : Agenda) (parent : Node) (w : World) : Phase :=
  match w.verdict with
  | some true => .asking agenda parent
  | _ => .visiting agenda

/-- One step of `run_propagation_pass`. -/
def advance (w : World) (s : Course) : Course :=
  match s.phase with
  | .idle => s
  | .collecting kind => match s.ledger.candidates limits kind with
    | none => { s with phase := .idle }
    | some nodes => { s with phase := .visiting ⟨kind, nodes⟩ }
  | .visiting ⟨kind, []⟩ => { s with phase := nextLevel kind }
  | .visiting ⟨kind, parent :: waiting⟩ =>
    if w.usable = false then { s with phase := nextLevel kind }
    else if forceRecompute s.ledger parent w then { s with phase := .asking ⟨kind, waiting⟩ parent }
    else { s with phase := .comparing ⟨kind, waiting⟩ parent }
  | .comparing agenda parent => { s with phase := s.compare limits agenda parent }
  | .judging agenda parent => { s with phase := judge agenda parent w }
  | .asking agenda parent => { s with phase := s.ask limits codec agenda parent w }
  | .storing agenda parent payload status _ =>
    match s.write g limits codec ⟨parent, some payload, status⟩ with
    | some s => { s with phase := .resetting agenda parent }
    | none => { s with phase := .idle }
  | .resetting agenda parent =>
    { s with ledger := s.ledger.zeroCounter parent, phase := .visiting agenda }

def step (s : Course) (e : CourseEvent) : Course :=
  match e with
  | .write c => (s.write g limits codec c).getD s
  | .start usable => match s.phase with
    | .idle => if usable then { s with phase := .collecting .file } else s
    | _ => s
  | .advance w => s.advance g limits codec w
  | .crash => { s with phase := .idle }

end Course

end Pass

end RemyCC.Retrieval
