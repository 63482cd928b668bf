import RemyCC.Json.Print
import RemyCC.Text
import RemyCC.Index.Schema

/-!
# Writing and deleting the facts of a file

`write_file_facts` replaces what the index holds of one file unless its
structural hash and its parser identity are those already stored;
`delete_file` removes it. Both report the names that the file gained or lost.
-/

namespace RemyCC.Index

open Relational Text

structure SymbolInfo where
  name : String
  args : String
  symType : String
  lineno : Int
  sourceSegment : String
  endLineno : Option Int
  docstring : Option String
  bases : Option (List String)
  hashSourceSegment : Option String
  deriving DecidableEq, Repr

def SymbolInfo.hashSegment (s : SymbolInfo) : String := s.hashSourceSegment.getD s.sourceSegment

structure OccurrenceFact where
  symbol : SymbolInfo
  occurrenceIndex : Nat
  isCanonical : Bool
  conflictKind : ConflictKind
  selectionReason : String
  hash : String
  deriving DecidableEq, Repr

structure EdgeFact where
  caller : String
  callee : String
  line : Int
  callForm : CallForm
  deriving DecidableEq, Repr

structure PatternFact where
  patternType : String
  signalName : Option String
  handler : Option String
  line : Option Int
  metadataJson : Option String
  deriving DecidableEq, Repr

/-- The facts of one file. Selection leaves one canonical symbol for each name
and numbers the occurrences of a name. -/
structure FileFacts where
  relPath : String
  structHash : String
  languageId : String
  layer : String
  importsJson : String
  importBindingsJson : String
  identity : CacheIdentity
  canonicalSymbols : List SymbolInfo
  occurrences : List OccurrenceFact
  edges : List EdgeFact
  patterns : List PatternFact
  named : relPath ≠ ""
  canonical : (canonicalSymbols.map SymbolInfo.name).Nodup
  indexed : (occurrences.map fun o => (o.symbol.name, o.occurrenceIndex)).Nodup
  deriving DecidableEq

/-- The digest of a symbol's segment, given the file's language, and the
tokens of a symbol's name. -/
structure Hashes where
  symbolHash : String → String → String
  tokenizeSymbol : String → String

structure FileDelta where
  changed : Bool
  created : Bool
  names : List String
  deriving DecidableEq, Repr

def FileDelta.unchanged : FileDelta := ⟨false, false, []⟩

def fileUnchanged (f : FileFacts) (d : Database) : Bool :=
  match d.file? f.relPath with
  | some r => r.structHash == f.structHash && r.identity == f.identity
  | none => false

/-- The symbol names and short names that the index holds of a file. -/
def symbolNames (path : String) (d : Database) : List String :=
  (d.symbols.rows.filter fun s => s.filePath == path).flatMap fun s => [s.name, s.shortName]

def FileFacts.newRow (f : FileFacts) : FileRow where
  path := f.relPath
  structHash := f.structHash
  language := some f.languageId
  layer := some f.layer
  imports := some f.importsJson
  importBindings := f.importBindingsJson
  kindHint := none
  identity := f.identity

def FileFacts.editRow (f : FileFacts) (r : FileRow) : FileRow :=
  { f.newRow with path := r.path, kindHint := r.kindHint }

theorem FileFacts.editRow_path (f : FileFacts) (r : FileRow) : (f.editRow r).path = r.path := rfl

theorem FileFacts.newRow_path (f : FileFacts) : f.newRow.path = f.relPath := rfl

def FileFacts.occurrenceRow (f : FileFacts) (o : OccurrenceFact) : OccurrenceRow where
  filePath := f.relPath
  name := o.symbol.name
  occurrenceIndex := o.occurrenceIndex
  type := o.symbol.symType
  args := o.symbol.args
  lineno := some o.symbol.lineno
  endLineno := o.symbol.endLineno
  hash := o.hash
  isCanonical := o.isCanonical
  conflictKind := o.conflictKind
  selectionReason := o.selectionReason

def basesJson (bases : Option (List String)) : Option String :=
  match bases with
  | none => none
  | some [] => none
  | some bases => some (Json.dumpsDefault (.arr (bases.map .str)))

def FileFacts.symbolRow (h : Hashes) (f : FileFacts) (s : SymbolInfo) : SymbolRow where
  filePath := f.relPath
  name := s.name
  shortName := lastPart '.' s.name
  type := s.symType
  args := s.args
  lineno := some s.lineno
  endLineno := s.endLineno
  hash := some (h.symbolHash f.languageId s.hashSegment)
  bases := basesJson s.bases
  nameTokens := h.tokenizeSymbol s.name

def FileFacts.edgeRow (f : FileFacts) (e : EdgeFact) (id : Nat) : EdgeRow where
  id := id
  sourceFile := f.relPath
  caller := e.caller
  callee := e.callee
  calleeFile := none
  calleeQualified := none
  line := some e.line
  provenance := none
  synthesizedFrom := none
  via := none
  callForm := e.callForm

theorem FileFacts.edgeRow_id (f : FileFacts) (e : EdgeFact) (id : Nat) :
    (f.edgeRow e id).id = id := rfl

def FileFacts.patternRow (f : FileFacts) (p : PatternFact) : PatternRow where
  filePath := f.relPath
  patternType := p.patternType
  signalName := p.signalName
  handler := p.handler
  line := p.line
  metadata := p.metadataJson

namespace Database

/-- The deletions that replacing and removing a file share: candidates go
before the edges that they belong to. -/
def dropFacts (path : String) (d : Database) : Database :=
  { d with
    symbols := d.symbols.deleteWhere fun s => s.filePath == path
    occurrences := d.occurrences.deleteWhere fun o => o.filePath == path
    candidates := d.candidates.deleteWhere fun c =>
      d.edges.rows.any fun e => e.sourceFile == path && e.id == c.edgeId
    edges := d.edges.deleteWhere fun e => e.sourceFile == path
    patterns := d.patterns.filter fun p => !(p.filePath == path) }

def addOccurrences (f : FileFacts) (d : Database)
    (h : ∀ o ∈ d.occurrences.rows, o.filePath ≠ f.relPath) : Database :=
  { d with
    occurrences := d.occurrences.append (f.occurrences.map f.occurrenceRow)
      (by
        have hkey : OccurrenceRow.key ∘ f.occurrenceRow =
            (fun k : String × Nat => (f.relPath, k)) ∘
              fun o => (o.symbol.name, o.occurrenceIndex) := rfl
        rw [List.map_map, hkey, ← List.map_map]
        exact f.indexed.map fun a b hab => (Prod.mk.inj hab).2)
      (by
        intro r hr s hs hk
        obtain ⟨o, -, rfl⟩ := List.mem_map.mp hr
        exact h s hs (Prod.mk.inj hk).1) }

def addSymbols (h : Hashes) (f : FileFacts) (d : Database)
    (hfresh : ∀ s ∈ d.symbols.rows, s.filePath ≠ f.relPath) : Database :=
  { d with
    symbols := d.symbols.append (f.canonicalSymbols.map (f.symbolRow h))
      (by
        have hkey : SymbolRow.key ∘ f.symbolRow h =
            (fun n : String => (f.relPath, n)) ∘ SymbolInfo.name := rfl
        rw [List.map_map, hkey, ← List.map_map]
        exact f.canonical.map fun a b hab => (Prod.mk.inj hab).2)
      (by
        intro r hr s hs hk
        obtain ⟨o, -, rfl⟩ := List.mem_map.mp hr
        exact hfresh s hs (Prod.mk.inj hk).1) }

def addEdges (f : FileFacts) (d : Database) : Database :=
  { d with
    edges := f.edges.foldl (fun t e => t.insert (f.edgeRow e) (f.edgeRow_id e)) d.edges }

def addPatterns (f : FileFacts) (d : Database) : Database :=
  { d with patterns := d.patterns ++ f.patterns.map f.patternRow }

def upsertFile (f : FileFacts) (d : Database) : Database :=
  { d with files := d.files.upsert f.relPath f.editRow f.editRow_path f.newRow f.newRow_path }

theorem dropFacts_symbols_ne {path : String} {d : Database} {s : SymbolRow}
    (h : s ∈ (d.dropFacts path).symbols.rows) : s.filePath ≠ path := by
  simpa using (List.mem_filter.mp h).2

theorem dropFacts_occurrences_ne {path : String} {d : Database} {o : OccurrenceRow}
    (h : o ∈ (d.dropFacts path).occurrences.rows) : o.filePath ≠ path := by
  simpa using (List.mem_filter.mp h).2

/-- The facts of a file in place of those that the index held of it. -/
def replaceFacts (h : Hashes) (f : FileFacts) (d : Database) : Database :=
  let dropped := (d.upsertFile f).dropFacts f.relPath
  let occurring := dropped.addOccurrences f fun _ => dropFacts_occurrences_ne
  let symbolized := occurring.addSymbols h f fun _ => dropFacts_symbols_ne (d := d.upsertFile f)
  (symbolized.addEdges f).addPatterns f

end Database

def writeFileFacts (h : Hashes) (f : FileFacts) (d : Database) : Database × FileDelta :=
  if fileUnchanged f d then (d, .unchanged)
  else
    let new := (f.canonicalSymbols.map (f.symbolRow h)).flatMap fun s => [s.name, s.shortName]
    (d.replaceFacts h f,
      { changed := true
        created := !d.hasFile f.relPath
        names := sortedSet (symbolNames f.relPath d ++ new) })

/-- The report is empty where no file row was there to be removed. -/
def deleteFile (path : String) (d : Database) : Database × Option FileDelta :=
  let d' := { d.dropFacts path with files := d.files.deleteWhere fun r => r.path == path }
  if d.hasFile path then
    (d', some { changed := true, created := false, names := sortedSet (symbolNames path d) })
  else (d', none)

end RemyCC.Index
