import RemyCC.Relational.Run
import RemyCC.Retrieval.Lookups
import RemyCC.Retrieval.Readers

/-!
# Summaries written by the tools

A summary that the Python tools write becomes the next version of its node. Where
it says something new, the change is counted at the parent of the node, if that
one has a current summary. A call that raises is rolled back.
-/

namespace RemyCC.Retrieval

open Relational Text Index Python

structure NodeChangeCounter where
  node : Node
  childChangeCount : Int
  leafDescendantCount : Int
  deriving DecidableEq, Repr

/-- The tables that a write of a summary reads and changes. -/
structure Ledger where
  index : Database
  summaries : Numbered SummaryVersion.id
  documents : Keyed Document.node
  counters : Keyed NodeChangeCounter.node

/-- The arguments of a call; the payload is the text that `json.dumps` makes of it. -/
structure WriteCall where
  node : Node
  payload : Option String
  status : Status

/-- What `json.loads` makes of a payload and `==` on it, down to the floats of the
interpreter. -/
structure PayloadReader where
  Payload : Type
  loads : String → Except LoadError Payload
  equal : Payload → Payload → Bool

section Parents

/-- `rsplit(sep, 1)[0]` on a text that contains the separator. -/
def beforeLast (sep : List Char) : List Char → Option (List Char)
  | [] => if sep = [] then some [] else none
  | c :: rest =>
    match beforeLast sep rest with
    | some before => some (c :: before)
    | none => if sep.isPrefixOf (c :: rest) then some [] else none

def ownerOf (ref : String) : Option String :=
  (beforeLast "::".toList ref.toList).map String.ofList

/-- The clusters that a file is a member of, as the join finds them. -/
def clustersOf (d : Database) (path : String) : List ClusterRow :=
  d.clusters.rows.filter fun k => d.members.any fun m => m.clusterId == k.id && m.filePath == path

def resolveParent (d : Database) : Node → Option Node
  | ⟨.symbol, ref⟩ => (ownerOf ref).map fileNode
  | ⟨.file, ref⟩ => (clustersOf d ref).head?.map fun k => clusterNode k.name
  | ⟨.cluster, _⟩ => none

example : ownerOf "a.cpp::ns::run" = some "a.cpp::ns" ∧ ownerOf "a:::b" = some "a:" := by
  decide +kernel

end Parents

/-- A text that can be encoded has no surrogates. -/
def encodeText (points : List Nat) : Option String :=
  if points.all fun n => decide n.isValidChar then some (String.ofList (points.map Char.ofNat))
  else none

def ToolSummary.encode (summary : ToolSummary) : Option CurrentSummary := do
  let short ← summary.short.mapM encodeText
  let full ← summary.full.mapM encodeText
  return ⟨summary.id, summary.version, short, full⟩

theorem counted_node (node : Node) (r : NodeChangeCounter) :
    (if r.node = node then { r with childChangeCount := r.childChangeCount + 1 } else r).node =
      r.node := by
  split <;> rfl

namespace Ledger

section Versions

def rowsOf (l : Ledger) (node : Node) : List SummaryVersion :=
  l.summaries.rows.filter fun r => r.node == node

def newest? (l : Ledger) (node : Node) : Option SummaryVersion :=
  (versionsOf node l.summaries.rows).head?

def topVersion (l : Ledger) (node : Node) : Nat := ((l.newest? node).map (·.version)).getD 0

def insertVersion (l : Ledger) (c : WriteCall) : Ledger :=
  { l with
    summaries := l.summaries.insert
      (fun id => ⟨id, c.node, l.topVersion c.node + 1, c.payload, c.status⟩) fun _ => rfl }

end Versions

section Counters

def counter? (l : Ledger) (node : Node) : Option NodeChangeCounter :=
  l.counters.rows.find? fun r => r.node = node

def childChangeCount (l : Ledger) (node : Node) : Int :=
  ((l.counter? node).map NodeChangeCounter.childChangeCount).getD 0

/-- A node without a counter gets one, and then its counter is increased. -/
def bump (l : Ledger) (node : Node) : Ledger :=
  { l with
    counters := (l.counters.insertOrIgnore ⟨node, 0, 0⟩).update
      (fun r => if r.node = node then { r with childChangeCount := r.childChangeCount + 1 } else r)
      (counted_node node) }

end Counters

variable (g : Digests) (limits : Limits) (reader : PayloadReader)

/-- `select_current_summary`, where it does not raise. -/
def selectCurrent (l : Ledger) (node : Node) : Option ToolSummary :=
  (selectTool limits ((l.rowsOf node).map SummaryVersion.row)).toOption

def hasCurrent (l : Ledger) (node : Node) : Bool :=
  ((l.selectCurrent limits node).bind ToolSummary.id).isSome

def refreshNode (l : Ledger) (node : Node) : Option Ledger :=
  match loadFactDocument l.index node with
  | none => some { l with documents := l.documents.deleteWhere fun doc => doc.node == node }
  | some facts => do
    let selected ← l.selectCurrent limits node
    let summary ← selected.encode
    return { l with
      documents := l.documents.upsert node
        (fun old => { documentOf g node facts summary with node := old.node }) (fun _ => rfl)
        (documentOf g node facts summary) rfl }

/-- `_matches_previous_summary`. -/
def matchesPrevious : Option String → Option String → Option Bool
  | some new, some old =>
    if new = old then some true
    else match reader.loads new with
      | .error .decode => some false
      | .error .raised => none
      | .ok payload => match reader.loads old with
        | .error .decode => some false
        | .error .raised => none
        | .ok previous => some (reader.equal payload previous)
  | _, _ => some false

/-- `_bump_parent_counter_if_applicable`. -/
def bumpParent (l : Ledger) (child : Node) : Option Ledger :=
  match resolveParent l.index child with
  | none => some l
  | some parent => do
    let current ← l.selectCurrent limits parent
    return if current.id.isSome then l.bump parent else l

/-- The last part of a write: a change is counted at the parent. -/
def countChange (previous : Option String) (c : WriteCall) (l : Ledger) : Option Ledger :=
  if c.status.available then do
    let same ← matchesPrevious reader c.payload previous
    if same then some l else l.bumpParent limits c.node
  else some l

def writeSummaryVersion (l : Ledger) (c : WriteCall) : Option (Ledger × Nat) := do
  let refreshed ← (l.insertVersion c).refreshNode g limits c.node
  let written ← refreshed.countChange limits reader ((l.newest? c.node).bind (·.summary)) c
  return (written, l.topVersion c.node + 1)

/-- The tables after a call: a call that raises leaves them as they were. -/
def attempt (l : Ledger) (c : WriteCall) : Ledger :=
  ((l.writeSummaryVersion g limits reader c).map Prod.fst).getD l

end Ledger

end RemyCC.Retrieval
