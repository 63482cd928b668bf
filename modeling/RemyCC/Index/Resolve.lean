import RemyCC.Index.Bindings

/-!
# Resolving call edges

A direct edge is resolved by the best-scored symbol that bears the callee's
name: one of its own file, else one of an imported file, else one of another
file in the same language. Each edge is worked on alone, from the files and the
symbols only.
-/

namespace RemyCC.Index

open Relational Text

structure Resolution where
  best : String
  bestFile : Option String
  provenance : Provenance
  candidates : List (String × Nat)
  deriving DecidableEq, Repr

def qualifiedName (s : SymbolRow) : String := s.filePath ++ "::" ++ s.name

def SymbolRow.bears (name : String) (s : SymbolRow) : Bool := s.name == name || s.shortName == name

def symbolOrder : SymbolRow → SymbolRow → Ordering :=
  compareLex (compareOn SymbolRow.filePath) (compareOn SymbolRow.name)

/-- The qualified names of the symbols that bear a name in files passing a test. -/
def symbolsWhere (p : String → Bool) (name : String) (d : Database) : List String :=
  (orderBy symbolOrder
    (d.symbols.rows.filter fun s => p s.filePath && s.bears name)).map qualifiedName

def importList (i : ImportDerivation) (path : String) (d : Database) : List String :=
  let listed := (((d.file? path).bind FileRow.imports).map fun text =>
    jsonStrings (jsonArray text)).getD []
  (i.supplementsOf path).foldl
    (fun imports extra => if imports.contains extra then imports else imports ++ [extra]) listed

/-- A file without a language is in the same language as no other. -/
def inLanguage (language : Option String) (d : Database) (path : String) : Bool :=
  match (d.file? path).bind FileRow.language with
  | some l => language == some l
  | none => false

def globalSymbols (c : PostprocessConfig) (e : EdgeRow) (d : Database) : List String :=
  let language := (d.file? e.sourceFile).bind FileRow.language
  (symbolsWhere (fun path => path != e.sourceFile && inLanguage language d path)
    e.callee d).take c.resolveFanoutCap

def addUnlessListed (score : Nat) (candidates : List (String × Nat)) (qualified : String) :
    List (String × Nat) :=
  if candidates.any fun k => k.1 == qualified then candidates
  else candidates ++ [(qualified, score)]

def nearCandidates (c : PostprocessConfig) (i : ImportDerivation) (e : EdgeRow) (d : Database) :
    List (String × Nat) :=
  let sameFile := (symbolsWhere (· == e.sourceFile) e.callee d).map
    fun q => (q, c.resolveScoreSameFile)
  let imports := importList i e.sourceFile d
  (symbolsWhere imports.contains e.callee d).foldl
    (addUnlessListed c.resolveScoreDirectImport) sameFile

/-- Symbols elsewhere count only for an edge without near candidates whose
callee is not a name bound to a module outside the index. -/
def resolveCandidates (c : PostprocessConfig) (i : ImportDerivation) (e : EdgeRow)
    (d : Database) : List (String × Nat) :=
  match nearCandidates c i e d with
  | [] =>
    if e.callForm != .attribute && (i.externalsOf e.sourceFile).contains e.callee then []
    else (globalSymbols c e d).map fun q => (q, c.resolveScoreGlobal)
  | near => near

def candidateOrder (k l : String × Nat) : Ordering :=
  (compare l.2 k.2).then (compare k.1 l.1)

def tied : List (String × Nat) → Bool
  | first :: second :: _ => first.2 == second.2
  | _ => false

def chooseProvenance (c : PostprocessConfig) (e : EdgeRow) (candidates : List (String × Nat))
    (score : Nat) : Provenance :=
  if tied candidates || (e.callForm == .attribute && score < c.resolveScoreSameFile) then
    .speculative
  else if c.resolveScoreDirectImport ≤ score then .definite
  else .probable

def resolveEdge (c : PostprocessConfig) (i : ImportDerivation) (d : Database) (e : EdgeRow) :
    Option Resolution :=
  let candidates := orderBy candidateOrder (resolveCandidates c i e d)
  candidates.head?.map fun first =>
    { best := first.1
      bestFile := beforeFirst "::" first.1
      provenance := chooseProvenance c e candidates first.2
      candidates := if 1 < candidates.length then candidates.take c.resolveFanoutCap else [] }

def EdgeRow.resolveTo (r : Resolution) (e : EdgeRow) : EdgeRow :=
  { e with
    calleeQualified := some r.best
    calleeFile := r.bestFile
    provenance := some r.provenance }

def EdgeRow.reset (e : EdgeRow) : EdgeRow :=
  { e with calleeQualified := none, calleeFile := none, provenance := none }

theorem EdgeRow.resolveTo_id (r : Resolution) (e : EdgeRow) : (e.resolveTo r).id = e.id := rfl

theorem EdgeRow.reset_id (e : EdgeRow) : e.reset.id = e.id := rfl

namespace Database

def editEdges (select : EdgeRow → Bool) (edit : EdgeRow → EdgeRow)
    (h : ∀ e, (edit e).id = e.id) (d : Database) : Database :=
  { d with
    edges := d.edges.update (fun e => if select e then edit e else e) (by
      intro e
      split
      · exact h e
      · rfl) }

def addCandidates (id : Nat) (candidates : List (String × Nat)) (d : Database) : Database :=
  { d with
    candidates := candidates.foldl (fun t k => t.insertOrIgnore ⟨id, k.1, k.2⟩) d.candidates }

def setResolution (id : Nat) (r : Resolution) (d : Database) : Database :=
  (d.editEdges (fun e => e.id == id) (EdgeRow.resolveTo r)
    (EdgeRow.resolveTo_id r)).addCandidates id
    r.candidates

end Database

def edgeOrder : EdgeRow → EdgeRow → Ordering :=
  compareLex (compareOn EdgeRow.sourceFile) (compareLex (compareOn EdgeRow.caller)
    (compareLex (compareOn EdgeRow.callee)
      (compareLex (compareOn fun e => e.line.getD 0) (compareOn EdgeRow.id))))

def unresolvedEdges (d : Database) : List EdgeRow :=
  orderBy edgeOrder (d.edges.rows.filter fun e => e.calleeQualified.isNone && e.direct)

def resolveStep (c : PostprocessConfig) (i : ImportDerivation) (d : Database) (e : EdgeRow) :
    Database :=
  match resolveEdge c i d e with
  | some r => d.setResolution e.id r
  | none => d

/-- `only` restricts the work to some edges. -/
def resolveCallEdgesFiltered (c : PostprocessConfig) (only : Option (List Nat)) (d : Database) :
    Database :=
  let i := deriveImportBindings d
  ((unresolvedEdges d).filter fun e =>
    match only with
    | some ids => ids.contains e.id
    | none => true).foldl (resolveStep c i) d

def resolveCallEdges (c : PostprocessConfig) (d : Database) : Database :=
  resolveCallEdgesFiltered c none d

end RemyCC.Index
