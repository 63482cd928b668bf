import RemyCC.Index.Schema
import RemyCC.Json.Parse
import RemyCC.Text

/-!
# What the hook says about a file

Before a file is edited the hook tells what the file calls and what calls it, as
the logic index has it, with the fewer details the more files there are.
-/

namespace RemyCC.Hook

open Index Relational Text

/-- The settings of the enrichment, in the ranges that loading them enforces. -/
structure HookConfig where
  tierFullMax : Nat
  tierMidMax : Nat
  cap : Nat
  capLarge : Nat
  sigMax : Nat
  tiers : tierFullMax ≤ tierMidMax
  capLarge_range : 1 ≤ capLarge
  caps : capLarge ≤ cap ∧ cap ≤ 100

inductive DetailLevel where
  | full
  | mid
  | minimal
  deriving DecidableEq, Repr

/-- The cap and the details for an index of as many files. -/
def HookConfig.tier (c : HookConfig) (fileCount : Nat) : Nat × DetailLevel :=
  if c.tierMidMax < fileCount then (c.capLarge, .minimal)
  else if c.tierFullMax < fileCount then (c.cap, .mid)
  else (c.cap, .full)

theorem HookConfig.tier_pos (c : HookConfig) (fileCount : Nat) : 0 < (c.tier fileCount).1 := by
  have hlarge := c.capLarge_range
  have hcaps := c.caps
  unfold HookConfig.tier
  split
  · exact hlarge
  · split <;> exact Nat.lt_of_lt_of_le hlarge hcaps.1

section Queries

/-- `SELECT DISTINCT .. LIMIT`: the distinct values in the order in which the engine finds them. -/
def distinctUpTo (scan : List String → List String) (limit : Nat) (values : List String) :
    List String := (scan values.dedup).take limit

variable (scan : List String → List String) (d : Database) (target : String)

def calleesOf (limit : Nat) : List String :=
  distinctUpTo scan limit
    ((d.edges.rows.filter fun e => e.sourceFile == target).filterMap EdgeRow.calleeQualified)

def callerName (e : EdgeRow) : String := e.sourceFile ++ "::" ++ e.caller

/-- The edges that the target's pattern matches. -/
def calling : List EdgeRow :=
  d.edges.rows.filter fun e => (e.calleeQualified.map (like (target ++ "::%"))).getD false

def callersOf (limit : Nat) : List String :=
  distinctUpTo scan limit ((calling d target).map callerName)

end Queries

section Groups

variable (d : Database) (detail : DetailLevel) (sigMax : Nat)

def formatSignature (value : String) : String :=
  if value = "" ∨ sigMax = 0 then ""
  else if value.length ≤ sigMax then value
  else String.ofList (value.toList.take sigMax) ++ "... (" ++
    toString (value.toList.count ',' + 1) ++ " args)"

def lineRange : Option Int → Option Int → String
  | some line, some endLine => " [L" ++ toString line ++ "-L" ++ toString endLine ++ "]"
  | some line, none => " [L" ++ toString line ++ "]"
  | none, _ => ""

def detailOf (s : SymbolRow) : String :=
  match detail with
  | .full =>
    let signature := formatSignature sigMax s.args
    if signature = "" then s.name ++ lineRange s.lineno s.endLineno
    else s.name ++ lineRange s.lineno s.endLineno ++ " | " ++ signature
  | .mid => s.name ++ lineRange s.lineno s.endLineno
  | .minimal => s.name

/-- The file of a qualified name, what is said of the symbol, and the layer of its file. -/
def symbolDetail (qualified : String) : Option String × String × Option String :=
  match splitOnce "::" qualified with
  | none => (none, qualified, none)
  | some (path, name) =>
    match d.file? path, d.symbols.rows.find? fun s => s.key == (path, name) with
    | some file, some s => (some path, detailOf detail sigMax s, file.layer)
    | _, _ => (some path, name, none)

structure Group where
  path : String
  layer : Option String
  entries : List String
  deriving DecidableEq, Repr

def addToGroups (key : String) (layer : Option String) (entry : String) :
    List Group → List Group
  | [] => [⟨key, layer, [entry]⟩]
  | g :: groups =>
    if g.path = key then { g with entries := g.entries ++ [entry] } :: groups
    else g :: addToGroups key layer entry groups

def Group.text (g : Group) : String :=
  let layer := (g.layer.map fun value => " (" ++ value ++ ")").getD ""
  match g.entries with
  | [entry] => g.path ++ layer ++ "::" ++ entry
  | entries => g.path ++ layer ++ "::\x7b" ++ joinWith ", " entries ++ "\x7d"

def groupsOf (qualified : List String) : List Group :=
  qualified.foldl (fun groups q =>
    let (path, entry, layer) := symbolDetail d detail sigMax q
    addToGroups (path.getD "?") layer entry groups) []

def formatGroups (qualified : List String) : List String :=
  (groupsOf d detail sigMax qualified).map Group.text

end Groups

/-- The paths of a column, if it holds a JSON array of texts. -/
def importsOf (column : Option String) : List String :=
  (((column.bind Json.parse).bind Json.Value.asArray).bind fun items =>
    items.mapM Json.Value.asStr).getD []

/-- What is reported about a file. -/
structure Enrichment where
  target : String
  layer : Option String
  callees : List String
  callers : List String
  imports : List String
  deriving DecidableEq, Repr

/-- Nothing is reported of a file outside the index, or one without relations or imports. -/
def gather (scan : List String → List String) (d : Database) (target : String) (c : HookConfig) :
    Option Enrichment :=
  (d.file? target).bind fun file =>
    let limit := (c.tier d.files.rows.length).1
    let found : Enrichment :=
      { target := target
        layer := file.layer
        callees := calleesOf scan d target limit
        callers := callersOf scan d target limit
        imports := importsOf file.imports }
    if found.callees = [] ∧ found.callers = [] ∧ found.imports = [] then none else some found

def Enrichment.lines (found : Enrichment) (d : Database) (detail : DetailLevel) (sigMax : Nat) :
    List String :=
  let header := "[Logic Context] " ++ found.target ++
    match found.layer with
    | some layer => if layer = "" then "" else " (" ++ layer ++ ")"
    | none => ""
  let line (lead : String) (names : List String) : List String :=
    if names = [] then [] else [lead ++ joinWith ", " (formatGroups d detail sigMax names)]
  header :: (line "  Calls into: " found.callees ++ line "  Called by: " found.callers ++
    if found.callees = [] ∧ found.callers = [] then
      ["  Imports: " ++ joinWith ", " found.imports] else [])

def buildEnrichment (scan : List String → List String) (d : Database) (target : String)
    (c : HookConfig) : Option String :=
  (gather scan d target c).map fun found =>
    joinWith "\n" (found.lines d (c.tier d.files.rows.length).2 c.sigMax)

end RemyCC.Hook
