import RemyCC.Text.Backtracking
import RemyCC.Index.Selection

/-!
# Event patterns of Python files

The symbols of a Python file are its functions and classes at the top and the
methods of these classes. Its event patterns are searched for in the text, so
that a file which does not parse has patterns too, but no symbols. What sends
an event is named by the function around it; what is connected to one is named
by the word that stands in the call.
-/

namespace RemyCC.Index

open Relational Text

section Symbols

/-- What a symbol takes from the node of a definition; rows count from zero. -/
structure DefinitionNode where
  name : Option String
  args : String
  row : Nat
  extent : Option (String × Nat)
  docstring : Option String
  bases : Option (List String)
  hashSegment : Option String
  deriving DecidableEq, Repr

/-- A statement without its decorators. -/
inductive Statement where
  | functionDefinition (node : DefinitionNode)
  | classDefinition (node : DefinitionNode) (body : List Statement)
  | other
  deriving Repr

def functionSymbol (parent : Option String) (node : DefinitionNode) : Option SymbolInfo := do
  let name ← node.name
  let (segment, endRow) ← node.extent
  return {
    name := match parent with
      | some parent => parent ++ "." ++ name
      | none => name
    args := node.args
    symType := "function"
    lineno := (node.row : Int) + 1
    sourceSegment := segment
    endLineno := some ((endRow : Int) + 1)
    docstring := node.docstring
    bases := none
    hashSourceSegment := node.hashSegment }

def classSymbol (name : String) (node : DefinitionNode) : Option SymbolInfo := do
  let (segment, endRow) ← node.extent
  return {
    name := name
    args := ""
    symType := "class"
    lineno := (node.row : Int) + 1
    sourceSegment := segment
    endLineno := some ((endRow : Int) + 1)
    docstring := node.docstring
    bases := node.bases
    hashSourceSegment := node.hashSegment }

def methodSymbol (className : String) : Statement → Option SymbolInfo
  | .functionDefinition node => functionSymbol (some className) node
  | _ => none

def statementSymbols : Statement → List SymbolInfo
  | .functionDefinition node => (functionSymbol none node).toList
  | .classDefinition node body =>
    match node.name with
    | some name => (classSymbol name node).toList ++ body.filterMap (methodSymbol name)
    | none => []
  | .other => []

def collectSymbols (tree : List Statement) : List SymbolInfo := tree.flatMap statementSymbols

end Symbols

section Patterns

open Regex

variable (classes : CharClasses)

def wordGroup (index : Nat) : Regex := .group index (plus (.one classes.word))

def spaces : Regex := star (.one isPythonReSpace)

def spaces₁ : Regex := plus (.one isPythonReSpace)

/-- `(\w+)\.connect\(\s*(\w+)`. -/
def djangoConnect : Regex :=
  seqs [wordGroup classes 1, word ".connect(", spaces, wordGroup classes 2]

/-- `(\w+)\.send\(`. -/
def djangoSend : Regex := seqs [wordGroup classes 1, word ".send("]

/-- `(\w+)\.connect\(\s*(?:self\.)?(\w+)`. -/
def pyqtConnect : Regex :=
  seqs [wordGroup classes 1, word ".connect(", spaces, opt (word "self."), wordGroup classes 2]

/-- `(\w+)\.emit\(`. -/
def pyqtEmit : Regex := seqs [wordGroup classes 1, word ".emit("]

/-- `self\.(\w+)\.(?:append|add|insert)\(`. -/
def observerAppend : Regex :=
  seqs [word "self.", wordGroup classes 1, word ".",
    alts (word "append") [word "add", word "insert"], word "("]

/-- `for\s+(\w+)\s+in\s+self\.(\w+)\s*:`. -/
def observerIter : Regex :=
  seqs [word "for", spaces₁, wordGroup classes 1, spaces₁, word "in", spaces₁, word "self.",
    wordGroup classes 2, spaces, word ":"]

/-- `^\b(\w+)\s*\(`. -/
def observerInvoke : Regex :=
  seqs [.start, .boundary classes.word, wordGroup classes 1, spaces, word "("]

def lineAt (before : List Char) : Int := (before.count '\n' : Int) + 1

def spans (line : Int) (s : SymbolInfo) : Bool :=
  s.symType == "function" && s.lineno ≤ line && line ≤ s.endLineno.getD s.lineno

/-- The function around a line that starts last; of several the last one. -/
def enclosingSymbol (symbols : List SymbolInfo) (line : Int) : Option SymbolInfo :=
  symbols.foldl (fun best s =>
    if spans line s then
      match best with
      | some current => if s.lineno < current.lineno then best else some s
      | none => some s
    else best) none

def enclosingFunction (symbols : List SymbolInfo) (line : Int) : Option String :=
  (enclosingSymbol symbols line).map SymbolInfo.name

def eventFact (patternType signalName : String) (handler : Option String) (line : Int) :
    PatternFact :=
  ⟨patternType, some signalName, handler, some line, none⟩

/-- A fact of the function around a match. -/
def enclosedFact (patternType : String) (symbols : List SymbolInfo) (group : Nat) (m : Found) :
    PatternFact :=
  let line := lineAt m.before
  eventFact patternType (m.group group) (enclosingFunction symbols line) line

/-- A fact of the word that stands in a call. -/
def connectFact (patternType : String) (m : Found) : PatternFact :=
  eventFact patternType (m.group 1) (some (m.group 2)) (lineAt m.before)

/-- The variable of a loop over observers is called first in its body. -/
def invokesVariable (m : Found) : Bool :=
  match findFirst (observerInvoke classes) (m.rest.dropWhile isWhitespace) with
  | some invoke => invoke.group? 1 == m.group? 1
  | none => false

def extractPatterns (source : String) (symbols : List SymbolInfo) : List PatternFact :=
  let text := source.toList
  let hasDjango := contains source ".connect(" || contains source ".send("
  let hasPyqt := (contains source "from PyQt" || contains source "from PySide") &&
    (contains source ".connect(" || contains source ".emit(")
  let django := if hasDjango then
      (findAll (djangoSend classes) text).map (enclosedFact "django_signal_send" symbols 1) ++
        (findAll (djangoConnect classes) text).map (connectFact "django_signal_connect")
    else []
  let pyqt := if hasPyqt then
      (findAll (pyqtEmit classes) text).map (enclosedFact "pyqt_signal_emit" symbols 1) ++
        (findAll (pyqtConnect classes) text).map (connectFact "pyqt_signal_connect")
    else []
  let emits := ((findAll (observerIter classes) text).filter (invokesVariable classes)).map
    (enclosedFact "observer_emit" symbols 2)
  let registers := (findAll (observerAppend classes) text).map
    (enclosedFact "observer_register" symbols 1)
  django ++ pyqt ++ emits ++ registers

end Patterns

section Files

/-- A Python file and what its parse tree gives; `hasError` is that of the tree. -/
structure PythonFile where
  relPath : String
  source : String
  tree : List Statement
  hasError : Bool
  structHash : String
  layer : String
  importsJson : String
  importBindingsJson : String
  identity : CacheIdentity
  edges : List EdgeFact
  named : relPath ≠ ""

namespace PythonFile

variable (classes : CharClasses) (h : Hashes) (f : PythonFile)

/-- The file is one that CPython reads: no byte order mark and no NUL. -/
def syntaxOk : Bool :=
  !f.hasError && f.source.toList.head? != some (Char.ofNat 0xfeff) &&
    !f.source.toList.contains (Char.ofNat 0)

def symbols : List SymbolInfo := if f.syntaxOk then collectSymbols f.tree else []

def patterns : List PatternFact := extractPatterns classes f.source f.symbols

def occurrenceFact (o : SelectedOccurrence) : OccurrenceFact where
  symbol := o.symbol
  occurrenceIndex := o.occurrenceIndex
  isCanonical := o.isCanonical
  conflictKind := o.conflictKind
  selectionReason := o.selectionReason
  hash := h.symbolHash "PythonParser" o.symbol.hashSegment

theorem canonical_nodup :
    ((selectSymbols f.symbols).canonicalSymbols.map SymbolInfo.name).Nodup :=
  selectSymbols_nodup f.symbols

theorem occurrences_nodup :
    (((selectSymbols f.symbols).occurrences.map (occurrenceFact h)).map
      fun o => (o.symbol.name, o.occurrenceIndex)).Nodup := by
  rw [List.map_map]
  exact selectSymbols_indexed f.symbols

def facts : FileFacts where
  relPath := f.relPath
  structHash := f.structHash
  languageId := "PythonParser"
  layer := f.layer
  importsJson := f.importsJson
  importBindingsJson := f.importBindingsJson
  identity := f.identity
  canonicalSymbols := (selectSymbols f.symbols).canonicalSymbols
  occurrences := (selectSymbols f.symbols).occurrences.map (occurrenceFact h)
  edges := f.edges
  patterns := f.patterns classes
  named := f.named
  canonical := f.canonical_nodup
  indexed := f.occurrences_nodup h

end PythonFile

end Files

end RemyCC.Index
