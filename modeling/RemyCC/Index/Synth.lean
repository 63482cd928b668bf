import RemyCC.Index.TraitBases

/-!
# Synthesized edges

Four synthesizers add edges that no call in the source shows: from emitters
to handlers of a signal, from the methods of a base to those of a class, from
a dispatch through a function pointer to its registered handlers, and from the
methods of a trait to those of an implementation. All of them read the symbols
and the patterns alone, so each is the list of the edges that it emits.
-/

namespace RemyCC.Index

open Relational Text

structure InferredEdge where
  sourceFile : String
  caller : String
  callee : String
  calleeFile : String
  calleeQualified : String
  line : Int
  synthesizedFrom : String
  via : String
  deriving DecidableEq, Repr

namespace InferredEdge

def row (e : InferredEdge) (id : Nat) : EdgeRow where
  id := id
  sourceFile := e.sourceFile
  caller := e.caller
  callee := e.callee
  calleeFile := some e.calleeFile
  calleeQualified := some e.calleeQualified
  line := some e.line
  provenance := some .inferred
  synthesizedFrom := some e.synthesizedFrom
  via := some e.via
  callForm := .name

theorem row_id (e : InferredEdge) (id : Nat) : (e.row id).id = id := rfl

/-- The identity that inferred edges are unique by. -/
def clashes (e : InferredEdge) (r : EdgeRow) : Bool :=
  !r.direct && r.sourceFile == e.sourceFile && r.caller == e.caller &&
    r.calleeQualified == some e.calleeQualified && r.via == some e.via

def sameKey (e f : InferredEdge) : Bool :=
  e.sourceFile == f.sourceFile && e.caller == f.caller &&
    e.calleeQualified == f.calleeQualified && e.via == f.via

end InferredEdge

def insertInferred (d : Database) (e : InferredEdge) : Database :=
  if d.edges.rows.any e.clashes then d
  else { d with edges := d.edges.insert e.row e.row_id }

/-- An edge whose key was emitted before is not emitted again. -/
def emitUnseen (e : InferredEdge) (out : List InferredEdge) : Option (List InferredEdge) :=
  if out.any e.sameKey then none else some (out ++ [e])

section Overrides

def isMethodOf (file lead : String) (s : SymbolRow) : Bool :=
  s.filePath == file && s.type == "function" && like (lead ++ ".%") s.name

def methodShorts (file lead : String) (d : Database) : List String :=
  (d.symbols.rows.filter (isMethodOf file lead)).map fun s => lastPart '.' s.name

def methodsByLine (file lead : String) (d : Database) : List SymbolRow :=
  orderBy (compareLex (compareOn fun s => s.lineno.getD 0) (compareOn SymbolRow.name))
    (d.symbols.rows.filter (isMethodOf file lead))

/-- A method of a base type leading to the method of the same short name of a
type that implements it. -/
def overrideEdge (via basePath implPath implType : String) (method : SymbolRow) : InferredEdge :=
  let short := lastPart '.' method.name
  { sourceFile := basePath
    caller := method.name
    callee := implType ++ "." ++ short
    calleeFile := implPath
    calleeQualified := implPath ++ "::" ++ implType ++ "." ++ short
    line := method.lineno.getD 0
    synthesizedFrom := basePath
    via := via }

/-- The methods of one base in turn, until the cap on emitted edges is reached. -/
def walkMethods (cap : Nat) (edge : SymbolRow → InferredEdge) (implemented : List String) :
    Nat → List SymbolRow → List InferredEdge → List InferredEdge
  | _, [], out => out
  | added, m :: rest, out =>
    if cap ≤ added then out
    else if implemented.contains (lastPart '.' m.name) then
      match emitUnseen (edge m) out with
      | some out => walkMethods cap edge implemented (added + 1) rest out
      | none => walkMethods cap edge implemented added rest out
    else walkMethods cap edge implemented added rest out

def overrideEdges (via : String) (cap : Nat) (d : Database) (implPath implType : String)
    (bases : List (String × String)) (out : List InferredEdge) : List InferredEdge :=
  let implemented := methodShorts implPath implType d
  if implemented = [] then out
  else bases.foldl (fun out base =>
    walkMethods cap (overrideEdge via base.1 implPath implType) implemented 0
      (methodsByLine base.1 base.2 d) out) out

def parseBases (text : String) : Option (List String) :=
  ((Json.parse text).bind Json.Value.asArray).map jsonStrings

def synthesizeInterfaceOverrideEdges (cap : Nat) (d : Database) : List InferredEdge :=
  (orderBy symbolOrder (d.symbols.rows.filter fun s => s.type == "class")).foldl
    (fun out s =>
      (sortedSet ((s.bases.bind parseBases).getD [])).foldl (fun out base =>
        overrideEdges "interface-impl" cap d s.filePath s.name
          (symbolKeysWhere (fun b => b.type == "class" && b.shortName == base) d) out) out) []

def synthesizeRustTraitImplEdges (cap : Nat) (d : Database) : List InferredEdge :=
  (traitImpls d).foldl (fun out t =>
    overrideEdges "trait-impl" cap d t.file t.fullType
      (symbolKeysWhere (fun b => b.type == "interface" && b.shortName == t.traitName &&
        like "%.rs" b.filePath) d) out) []

end Overrides

section Signals

def emittersOf (emitType : String) (d : Database) : List PatternRow :=
  orderBy (compareLex (compareOn lineOf) (compareLex (compareOn PatternRow.filePath)
    (compareLex (compareOn PatternRow.signalName) (compareOn PatternRow.handler))))
    (patternsOf emitType d)

/-- The handlers connected to a signal, as paths and functions. -/
def handlersOf (connectType signal : String) (d : Database) : List (String × Option String) :=
  (orderBy (compareLex (compareOn lineOf) (compareLex (compareOn PatternRow.filePath)
    (compareOn PatternRow.handler)))
    ((patternsOf connectType d).filter fun p => p.signalName == some signal)).map
      fun p => (p.filePath, p.handler)

def signalEdge (via : String) (emitter : PatternRow) (func : String) (path handler : String) :
    InferredEdge where
  sourceFile := emitter.filePath
  caller := func
  callee := handler
  calleeFile := path
  calleeQualified := path ++ "::" ++ handler
  line := lineOf emitter
  synthesizedFrom := emitter.filePath
  via := via

/-- An emitter is passed over when more handlers than the cap are connected to
its signal, and a handler that is the emitting function itself is no target. -/
def emitterEdges (via : String) (cap : Nat) (targets : List (String × Option String))
    (emitter : PatternRow) (func : String) (out : List InferredEdge) : List InferredEdge :=
  if cap < targets.length then out
  else targets.foldl (fun out target =>
    match target.2 with
    | some handler =>
      if emitter.filePath = target.1 ∧ func = handler then out
      else (emitUnseen (signalEdge via emitter func target.1 handler) out).getD out
    | none => out) out

def synthesizeSignalPattern (emitType connectType via : String) (cap : Nat) (d : Database) :
    List InferredEdge :=
  (emittersOf emitType d).foldl (fun out emitter =>
    match emitter.signalName, emitter.handler with
    | some signal, some func =>
      emitterEdges via cap (handlersOf connectType signal d) emitter func out
    | _, _ => out) []

end Signals

section FunctionPointers

/-- The fan-out cap of the function-pointer profile. -/
def cFnptrFanoutCap : Nat := 300

def truthy : Option Json.Value → Bool
  | none => false
  | some .null => false
  | some (.bool b) => b
  | some (.int n) => n != 0
  | some (.float literal) => literal.toList.any fun c => '1' ≤ c && c ≤ '9'
  | some (.str s) => s != ""
  | some (.arr items) => !items.isEmpty
  | some (.obj fields) => !fields.isEmpty

def fnptrTypedefs (d : Database) : List String :=
  (patternsOf "c_fnptr_typedef" d).filterMap PatternRow.signalName

def layoutFields (p : PatternRow) : Option (String × List Json.Value) :=
  match p.signalName, p.metadata.bind fun text =>
      ((Json.parse text).bind (·.get "fields")).bind Json.Value.asArray with
  | some signal, some fields => some (signal, fields)
  | _, _ => none

/-- The layouts of all structures, each with its structure; an empty layout or
one that the structure has already is not added. -/
def structLayouts (d : Database) : List (String × List Json.Value) :=
  ((orderBy (compareLex (compareOn PatternRow.signalName) (compareOn PatternRow.metadata))
    (patternsOf "c_struct_layout" d)).filterMap layoutFields).foldl
      (fun layouts l =>
        if l.2.isEmpty || layouts.any fun k => k.1 == l.1 && Json.Value.sameItems k.2 l.2 then
          layouts
        else layouts ++ [l]) []

def fieldName (field : Json.Value) : Option String := (field.get "name").bind Json.Value.asStr

def fieldFnptr (d : Database) (field : Json.Value) : Bool :=
  truthy (field.get "is_fnptr") ||
    match (field.get "type").bind Json.Value.asStr with
    | some type => (fnptrTypedefs d).contains type
    | none => false

def layoutsOf (structName : String) (d : Database) : List Json.Value :=
  ((structLayouts d).filter fun l => l.1 == structName).flatMap Prod.snd

/-- The first field of a structure's layouts that is a function pointer and has
the registered name or the registered position. -/
def resolveRegField (structName : String) (name : Option String) (slot : Option Int)
    (d : Database) : Option String :=
  ((layoutsOf structName d).find? fun field =>
    fieldFnptr d field && ((name.isSome && fieldName field == name) ||
      (slot.isSome && (field.get "index").bind Json.Value.asI64 == slot))).bind fieldName

/-- The structures that have a function pointer of a given name. -/
def fieldOwners (field : String) (d : Database) : List String :=
  (((structLayouts d).filter fun l => l.2.any fun f =>
    field != "" && fieldName f == some field && fieldFnptr d f).map Prod.fst).dedup

structure Registration where
  structName : String
  field : String
  handler : String
  deriving DecidableEq, Repr

def registrationOf (d : Database) (p : PatternRow) : Option Registration := do
  let signal ← p.signalName
  let handler ← p.handler
  let metadata ← (← p.metadata) |> Json.parse
  let field ← resolveRegField signal ((metadata.get "field").bind Json.Value.asStr)
    ((metadata.get "slot").bind Json.Value.asI64) d
  return ⟨signal, field, handler⟩

def registrations (d : Database) : List Registration :=
  (patternsOf "c_fnptr_register" d).filterMap (registrationOf d)

def registeredHandlers (structName field : String) (d : Database) : List String :=
  sortedSet (((registrations d).filter fun r =>
    r.structName == structName && r.field == field).map Registration.handler)

/-- A function or macro by name, in the preferred file if it is there. -/
def resolveSymbol (name : String) (prefer : Option String) (d : Database) :
    Option (String × String) :=
  let found := symbolKeysWhere
    (fun s => s.bears name && (s.type == "function" || s.type == "macro")) d
  match prefer.bind fun file => found.find? fun s => s.1 == file with
  | some s => some s
  | none => found.head?

def dispatches (d : Database) : List PatternRow :=
  orderBy (compareLex (compareOn lineOf) (compareLex (compareOn PatternRow.filePath)
    (compareLex (compareOn PatternRow.signalName) (compareLex (compareOn PatternRow.handler)
      (compareOn PatternRow.metadata))))) (patternsOf "c_fnptr_dispatch" d)

def structHint (p : PatternRow) : Option String :=
  (((p.metadata.bind Json.parse).bind (·.get "struct_hint"))).bind Json.Value.asStr

/-- The hinted structure if it owns the field, else the only owner. -/
def dispatchedStruct (hint : Option String) (owners : List String) : Option String :=
  match hint with
  | some hint => if owners.contains hint then some hint else onlyOne owners
  | none => onlyOne owners

def dispatchEdge (dispatch : PatternRow) (caller callee : String × String) : InferredEdge where
  sourceFile := caller.1
  caller := caller.2
  callee := lastPart '.' callee.2
  calleeFile := callee.1
  calleeQualified := callee.1 ++ "::" ++ callee.2
  line := lineOf dispatch
  synthesizedFrom := dispatch.filePath
  via := "c-fnptr-dispatch"

/-- The registered handlers in turn, until the cap on emitted edges is reached. -/
def walkHandlers (resolve : String → Option (String × String)) (dispatch : PatternRow)
    (caller : String × String) : Nat → List String → List InferredEdge → List InferredEdge
  | _, [], out => out
  | added, handler :: rest, out =>
    if cFnptrFanoutCap ≤ added then out
    else match resolve handler with
      | none => walkHandlers resolve dispatch caller added rest out
      | some callee =>
        if caller = callee then walkHandlers resolve dispatch caller added rest out
        else match emitUnseen (dispatchEdge dispatch caller callee) out with
          | some out => walkHandlers resolve dispatch caller (added + 1) rest out
          | none => walkHandlers resolve dispatch caller added rest out

def dispatchEdges (d : Database) (dispatch : PatternRow) (out : List InferredEdge) :
    List InferredEdge :=
  match dispatch.signalName, dispatch.handler with
  | some field, some enclosing =>
    match dispatchedStruct (structHint dispatch) (fieldOwners field d) with
    | some structName =>
      match resolveSymbol enclosing (some dispatch.filePath) d with
      | some caller =>
        walkHandlers (fun handler => resolveSymbol handler none d) dispatch caller 0
          (registeredHandlers structName field d) out
      | none => out
    | none => out
  | _, _ => out

def synthesizeCFnptrDispatchEdges (d : Database) : List InferredEdge :=
  (dispatches d).foldl (fun out dispatch => dispatchEdges d dispatch out) []

end FunctionPointers

def insertAll (edges : List InferredEdge) (d : Database) : Database := edges.foldl insertInferred d

def runAllSynthesizers (c : PostprocessConfig) (d : Database) : Database :=
  let events := c.synthEventFanoutCap
  let d := insertAll (synthesizeSignalPattern "django_signal_send" "django_signal_connect"
    "django-signal" events d) d
  let d := insertAll (synthesizeSignalPattern "pyqt_signal_emit" "pyqt_signal_connect"
    "pyqt-signal" events d) d
  let d := insertAll (synthesizeSignalPattern "observer_emit" "observer_register" "observer"
    events d) d
  let d := insertAll (synthesizeInterfaceOverrideEdges c.synthInterfaceFanoutCap d) d
  let d := insertAll (synthesizeCFnptrDispatchEdges d) d
  insertAll (synthesizeRustTraitImplEdges c.synthInterfaceFanoutCap d) d

end RemyCC.Index
