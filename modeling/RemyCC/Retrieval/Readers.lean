import RemyCC.Python.Loads
import RemyCC.Relational.Grouping
import RemyCC.Retrieval.Documents

/-!
# The readers of summaries

The scanner, the MCP server and the Python tools each go through the versions of
a node from the newest on. The two Rust readers are given the reader of a JSON
text; the Python one has its own, and its own notion of a blank.
-/

namespace RemyCC.Retrieval

open Relational Text Index Python

structure VersionRow where
  id : Nat
  version : Nat
  summary : Option String
  status : String
  deriving DecidableEq, Repr

def availableStatuses : List String := ["ok", "oversized_warn"]

def skippableStatuses : List String := ["pending", "corrupt", "oversized_hard"]

def barrierStatus : String := "stale"

def VersionRow.stale (r : VersionRow) : Bool := r.status == barrierStatus

/-- The two tests of a status that the readers make, one after the other. -/
def VersionRow.available (r : VersionRow) : Bool :=
  !skippableStatuses.contains r.status && availableStatuses.contains r.status

def newestFirst (rows : List VersionRow) : List VersionRow :=
  orderBy (fun a b => compare b.version a.version) rows

section Rust

variable (fromStr : String → Option Json.Value)

/-- The two texts of a payload, if it is an object whose short one says something. -/
def readObject (text : String) : Option (String × Option String) :=
  match fromStr text with
  | some (.obj payload) =>
    match ((Json.Value.field payload "short").bind Json.Value.asStr).filter (trim · ≠ "") with
    | some short => some (short, (Json.Value.field payload "full").bind Json.Value.asStr)
    | none => none
  | _ => none

def VersionRow.read (r : VersionRow) : Option (String × Option String) :=
  if r.available then r.summary.bind (readObject fromStr) else none

/-- The loop of the scanner's `select_current_summary`. -/
def selectScanned : List VersionRow → CurrentSummary
  | [] => .default
  | r :: rows =>
    if r.stale then .default
    else match r.read fromStr with
      | some (short, full) => ⟨some r.id, some r.version, some short, full⟩
      | none => selectScanned rows

structure Summary where
  short : Option String
  full : Option String
  status : Option String
  deriving DecidableEq, Repr

/-- The loop of the MCP server's `get_latest_summary`. -/
def selectLatest (latestStatus : Option String) : List VersionRow → Option Summary
  | [] => latestStatus.map fun status => ⟨none, none, some status⟩
  | r :: rows =>
    if r.stale then some ⟨none, none, some barrierStatus⟩
    else match r.read fromStr with
      | some (short, full) => some ⟨some short, full, some r.status⟩
      | none => selectLatest latestStatus rows

def selectCurrent (rows : List VersionRow) : CurrentSummary :=
  selectScanned fromStr (newestFirst rows)

def getLatestSummary (rows : List VersionRow) : Option Summary :=
  selectLatest fromStr ((newestFirst rows).head?.map VersionRow.status) (newestFirst rows)

/-- `mark_current_summary_stale`, as far as the versions go. -/
def markCurrentStale (rows : List VersionRow) : List VersionRow :=
  match (selectCurrent fromStr rows).id with
  | none => rows
  | some summaryId =>
    rows.map fun r => if r.id = summaryId then { r with status := barrierStatus } else r

end Rust

section Stored

def Status.name : Status → String
  | ok => "ok"
  | oversizedWarn => "oversized_warn"
  | pending => "pending"
  | corrupt => "corrupt"
  | oversizedHard => "oversized_hard"
  | stale => "stale"

def SummaryVersion.row (r : SummaryVersion) : VersionRow :=
  ⟨r.id, r.version, r.summary, r.status.name⟩

theorem Status.name_stale (status : Status) :
    (status.name == barrierStatus) = decide (status = .stale) := by
  cases status <;> decide

theorem Status.name_available (status : Status) :
    (!skippableStatuses.contains status.name && availableStatuses.contains status.name) =
      status.available := by
  cases status <;> decide

theorem readPayload_eq (text : String) : readPayload text = readObject Json.parse text := by
  unfold readPayload readObject
  cases Json.parse text with
  | none => rfl
  | some v =>
    cases v with
    | obj payload =>
      dsimp only
      cases (Json.Value.field payload "short").bind Json.Value.asStr with
      | none => rfl
      | some short => by_cases hblank : trim short = "" <;> simp [Option.filter, hblank]
    | _ => rfl

theorem SummaryVersion.row_read (r : SummaryVersion) :
    r.row.read Json.parse =
      if r.status.available then r.summary.bind readPayload else none := by
  rw [funext readPayload_eq]
  exact congrArg (if · then r.summary.bind (readObject Json.parse) else none)
    (Status.name_available r.status)

theorem selectFrom_eq (rows : List SummaryVersion) :
    selectFrom rows = selectScanned Json.parse (rows.map SummaryVersion.row) := by
  induction rows with
  | nil => rfl
  | cons r rows ih =>
    have hbarrier : r.row.stale = decide (r.status = .stale) := Status.name_stale r.status
    rw [List.map_cons, selectScanned, hbarrier, r.row_read, selectFrom, ih]
    by_cases hstale : r.status = .stale
    · simp only [hstale, if_true, decide_true]
    · simp only [hstale, if_false, decide_false]
      by_cases havailable : r.status.available = true
      · simp only [havailable, if_true]
        rfl
      · simp only [havailable]
        rfl

/-- The selection that the scanner makes of its stored versions. -/
theorem selectCurrentSummary_eq (rows : List SummaryVersion) (node : Node) :
    selectCurrentSummary rows node =
      selectCurrent Json.parse ((rows.filter fun r => r.node == node).map SummaryVersion.row) := by
  have hsort : (versionsOf node rows).map SummaryVersion.row =
      newestFirst ((rows.filter fun r => r.node == node).map SummaryVersion.row) :=
    map_orderBy_comp SummaryVersion.row (fun a b => compare b.version a.version) _
  rw [selectCurrentSummary, selectFrom_eq, hsort, selectCurrent]

end Stored

section Tools

variable (limits : Limits)

/-- `_parse_summary`: any other error than one of decoding is raised. -/
def parseSummary : Option String → Except LoadError (Option (List (List Nat × Loaded)))
  | none => .ok none
  | some text =>
    if text = "" then .ok none
    else match loads limits text with
      | .ok (.dict payload) => .ok (some payload)
      | .ok _ => .ok none
      | .error .decode => .ok none
      | .error .raised => .error .raised

/-- The two texts of a payload whose short one says something. -/
def takeTexts (payload : List (List Nat × Loaded)) : Option (List Nat × Option (List Nat)) :=
  match ((Loaded.get payload "short").bind Loaded.asStr).filter (strip · ≠ []) with
  | some short => some (short, (Loaded.get payload "full").bind Loaded.asStr)
  | none => none

def VersionRow.load (r : VersionRow) : Except LoadError (Option (List Nat × Option (List Nat))) :=
  if r.available then (parseSummary limits r.summary).map fun payload => payload.bind takeTexts
  else .ok none

structure ToolSummary where
  id : Option Nat
  version : Option Nat
  short : Option (List Nat)
  full : Option (List Nat)
  status : Option String
  latestStatus : Option String
  deriving DecidableEq, Repr

/-- The loop of `retrieval_projection.select_current_summary`. -/
def selectLoaded (latestStatus : Option String) :
    List VersionRow → Except LoadError ToolSummary
  | [] => .ok ⟨none, none, none, none, latestStatus, latestStatus⟩
  | r :: rows =>
    if r.stale then .ok ⟨none, none, none, none, some barrierStatus, latestStatus⟩
    else match r.load limits with
      | .error e => .error e
      | .ok (some (short, full)) =>
        .ok ⟨some r.id, some r.version, some short, full, some r.status, latestStatus⟩
      | .ok none => selectLoaded latestStatus rows

def selectTool (rows : List VersionRow) : Except LoadError ToolSummary :=
  selectLoaded limits ((newestFirst rows).head?.map VersionRow.status) (newestFirst rows)

end Tools

end RemyCC.Retrieval
