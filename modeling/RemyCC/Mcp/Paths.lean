import RemyCC.Index.Resolve
import RemyCC.Mcp.Callers
import RemyCC.Search.Trees

/-!
# Call paths

`bidir_bfs` goes from both ends of a path at once, forward from the source and
backward from the target, one level each in turn, until the two searches meet.
A hash map is the function that looks its keys up.
-/

namespace RemyCC.Mcp

open Index RemyCC.Search

/-- The provenance and the `via` of an edge. -/
abbrev Label := Option Provenance × Option String

abbrev Adjacency := Int → List (Int × Label)

structure SymbolInfo where
  qualified : String
  filePath : String
  name : String
  lineno : Option Int
  type : String
  deriving DecidableEq, Repr

structure Graph where
  adjFwd : Adjacency
  adjBwd : Adjacency
  nameToId : String → Option Int
  idToInfo : Int → Option SymbolInfo

section Loading

/-- The rows of `edges` that the query keeps. -/
def edgeRows (edges : List EdgeRow) (staticOnly : Bool) : List EdgeRow :=
  edges.filter fun e => e.calleeQualified.isSome && provClause staticOnly e

def symbolInfo (s : SymbolRow) : SymbolInfo where
  qualified := qualifiedName s
  filePath := s.filePath
  name := s.name
  lineno := s.lineno
  type := s.type

def nameToId (symbols : List (Int × SymbolRow)) (qualified : String) : Option Int :=
  symbols.foldl (fun found s => if qualifiedName s.2 == qualified then some s.1 else found) none

def idToInfo (symbols : List (Int × SymbolRow)) (sid : Int) : Option SymbolInfo :=
  symbols.foldl (fun found s => if s.1 == sid then some (symbolInfo s.2) else found) none

def Adjacency.push (adj : Adjacency) (sid : Int) (entry : Int × Label) : Adjacency :=
  fun nid => if nid == sid then adj nid ++ [entry] else adj nid

/-- The ids of the two ends of an edge. -/
def edgeIds (names : String → Option Int) (e : EdgeRow) : Option (Int × Int) :=
  (names (callerKey e)).bind fun src =>
    (e.calleeQualified.bind names).map fun tgt => (src, tgt)

def pushEdge (names : String → Option Int) (adj : Adjacency × Adjacency) (e : EdgeRow) :
    Adjacency × Adjacency :=
  match edgeIds names e with
  | some (src, tgt) =>
    (adj.1.push src (tgt, e.provenance, e.via), adj.2.push tgt (src, e.provenance, e.via))
  | none => adj

def loadGraph (symbols : List (Int × SymbolRow)) (edges : List EdgeRow) (staticOnly : Bool) :
    Graph :=
  let adj := (edgeRows edges staticOnly).foldl (pushEdge (nameToId symbols))
    (fun _ => [], fun _ => [])
  { adjFwd := adj.1
    adjBwd := adj.2
    nameToId := nameToId symbols
    idToInfo := idToInfo symbols }

end Loading

structure PathStep where
  id : Int
  provenance : Option Provenance
  via : Option String
  deriving DecidableEq, Repr

section Search

variable (graph : Graph)

def pathStep (a : Int × Parent Int Label) : PathStep where
  id := a.1
  provenance := a.2.label.1
  via := a.2.label.2

/-- The backward half, each step under the first edge that leads to it. -/
def followBack : Int → List Int → List PathStep
  | _, [] => []
  | prev, nid :: rest =>
    let label := (firstLabel graph.adjFwd prev nid).getD (none, none)
    { id := nid, provenance := label.1, via := label.2 } :: followBack nid rest

/-- `none` where the maps do not lead to the two ends. -/
def reconstructPath (meet : Int) (fwdParent bwdParent : ParentMap Int Label) :
    Option (List PathStep) :=
  (climb fwdParent fwdParent.length (some meet)).bind fun fwdHalf =>
    (bwdParent.lookup meet).bind fun met =>
      (climb bwdParent bwdParent.length met.node).map fun bwdHalf =>
        (fwdHalf.map pathStep).reverse ++ followBack graph meet (bwdHalf.map Prod.fst)

inductive Outcome where
  | found (path : List PathStep)
  | overBudget
  | notFound
  /-- The reconstruction fails. -/
  | stuck
  deriving DecidableEq, Repr

def reconstructed (meet : Int) (fwdParent bwdParent : ParentMap Int Label) : Outcome :=
  match reconstructPath graph meet fwdParent bwdParent with
  | some path => .found path
  | none => .stuck

def bidirRounds (maxVisited : Int) : Nat → ParentMap Int Label → ParentMap Int Label →
    List Int → List Int → Outcome
  | 0, _, _, _, _ => .notFound
  | rounds + 1, fwdParent, bwdParent, frontF, frontB =>
    if maxVisited < (fwdParent.length + bwdParent.length : Nat) then .overBudget
    else if frontF.isEmpty && frontB.isEmpty then .notFound
    else
      match expandFront graph.adjFwd bwdParent frontF (fwdParent, []) with
      | .met meet fwdParent => reconstructed graph meet fwdParent bwdParent
      | .done fwdParent nextF =>
        match expandFront graph.adjBwd fwdParent frontB (bwdParent, []) with
        | .met meet bwdParent => reconstructed graph meet fwdParent bwdParent
        | .done bwdParent nextB => bidirRounds maxVisited rounds fwdParent bwdParent nextF nextB

def unlabelled : Parent Int Label := ⟨none, none, none⟩

def bidirRun (src tgt maxDepth maxVisited : Int) : Outcome :=
  if src == tgt then .found [⟨src, none, none⟩]
  else bidirRounds graph maxVisited maxDepth.toNat [(src, unlabelled)] [(tgt, unlabelled)] [src] [tgt]

/-- What the callers see: a path, or nothing whatever the reason. -/
def Outcome.path : Outcome → Option (List PathStep)
  | .found path => some path
  | _ => none

def bidirBfs (src tgt maxDepth maxVisited : Int) : Option (List PathStep) :=
  (bidirRun graph src tgt maxDepth maxVisited).path

end Search

end RemyCC.Mcp
