import RemyCC.Json.Object
import RemyCC.Json.Print
import RemyCC.Text

/-!
# The settings document

The installer merges a template into `settings.json`, records in a claim what
it put there, and takes it out again by that claim. A path is seen through its
text, and `join` adds a segment to it as the platform does.
-/

namespace RemyCC.Install

open Json Json.Value Text

/-- A file that stands where one of the installer is to go, with other content. -/
structure UnmanagedConflict where
  root : String
  path : String
  diskSha256 : String
  deriving DecidableEq, Repr

structure InstallError where
  message : String
  conflicts : List UnmanagedConflict
  deriving DecidableEq, Repr

namespace InstallError

def metadata (message : String) : InstallError := ⟨message, []⟩

def runtime (message : String) : InstallError := ⟨message, []⟩

def unmanagedConflicts (conflicts : List UnmanagedConflict) : InstallError :=
  ⟨"an unmanaged target has different content", conflicts⟩

end InstallError

def enrichPlaceholder : String := "__REMY_ENRICH_COMMAND__"

def dirtyPlaceholder : String := "__REMY_DIRTY_COMMAND__"

def claudeHomePlaceholder : String := "~/.claude/"

def binDir : String := "bin"

structure TargetHook where
  event : String
  matcher : String
  scriptName : String

def targetHooks : List TargetHook :=
  [⟨"PreToolUse", "Read|Glob|Grep", "logic_enrichment_hook.py"⟩,
    ⟨"PostToolUse", "Edit|Write", "logic_dirty_tracker.py"⟩]

structure HookCommands where
  enrich : String
  dirty : String

structure ClaimedHook where
  event : String
  matcher : String
  command : String
  deriving DecidableEq, Repr

structure SettingsClaim where
  hooks : List ClaimedHook
  permissions : List String
  deriving DecidableEq, Repr

/-- The two managed roots, by their text. -/
structure Roots where
  claudeRoot : String
  remyRoot : String

def hookCommand (hook : Value) : Option String :=
  ((hook.get "command").bind asStr).map trim

/-- Strings pass through, anything else takes its JSON rendering. -/
def stringView : Option Value → String
  | none => ""
  | some (.str text) => text
  | some other => print other

def matcherView (fields : List (String × Value)) : String := stringView (field fields "matcher")

/-- `retain_nonempty_entries` keeps the entries whose list of hooks is not empty. -/
def holdsHooks (entry : Value) : Bool :=
  match (entry.get "hooks").bind asArray with
  | some list => !list.isEmpty
  | none => false

def retainNonempty (entries : List Value) : List Value := entries.filter holdsHooks

section Template

def renderCommand (claudePrefix : String) (commands : HookCommands) (command : String) : String :=
  replaceAll claudeHomePlaceholder claudePrefix
    (replaceAll dirtyPlaceholder commands.dirty
      (replaceAll enrichPlaceholder commands.enrich command))

def renderHook (claudePrefix : String) (commands : HookCommands) : Value → Value
  | .obj hook =>
    let command := ((field hook "command").bind asStr).getD ""
    .obj (setField "command" (.str (renderCommand claudePrefix commands command)) hook)
  | hook => hook

def renderEntry (claudePrefix : String) (commands : HookCommands) : Value → Value
  | .obj entry =>
    match field entry "hooks" with
    | some (.arr list) =>
      .obj (setField "hooks" (.arr (list.map (renderHook claudePrefix commands))) entry)
    | _ => .obj entry
  | entry => entry

def renderEvent (claudePrefix : String) (commands : HookCommands) : Value → Value
  | .arr entries => .arr (entries.map (renderEntry claudePrefix commands))
  | entries => entries

def renderTemplate (template : Value) (claudeRoot : String) (commands : HookCommands) : Value :=
  let claudePrefix := replaceChar '\\' '/' claudeRoot ++ "/"
  match template with
  | .obj fields =>
    match field fields "hooks" with
    | some (.obj hooks) =>
      .obj (setField "hooks"
        (.obj (hooks.map fun f => (f.1, renderEvent claudePrefix commands f.2))) fields)
    | _ => .obj fields
  | template => template

end Template

section Defaults

variable (join : String → String → String) (roots : Roots)

def quoteCommandArg (value : String) : Except InstallError String :=
  if '"' ∈ value.toList ∨ '\r' ∈ value.toList ∨ '\n' ∈ value.toList then
    .error (.runtime "managed command path contains unsupported characters")
  else .ok ("\"" ++ value ++ "\"")

def isWindowsPath (path : String) : Bool :=
  startsWith path "\\\\" ||
    match path.toList with
    | c :: ':' :: _ => c.toNat < 128
    | _ => false

def managedExeName (remyRoot : String) : String :=
  if isWindowsPath remyRoot then "remy-cc.exe" else "remy-cc"

def legacyExeName (remyRoot : String) : String :=
  if isWindowsPath remyRoot then "remy-daemon.exe" else "remy-daemon"

def hookCommands : Except InstallError HookCommands := do
  let executable := join (join roots.remyRoot binDir) (managedExeName roots.remyRoot)
  let quoted ← quoteCommandArg executable
  return ⟨quoted ++ " hook enrich", quoted ++ " hook dirty"⟩

def isLegacyDefault (command scriptName : String) : Bool :=
  let normalized := replaceChar '\\' '/' command
  let absolute := replaceChar '\\' '/' (join (join roots.claudeRoot "hooks") scriptName)
  normalized == "python \"" ++ claudeHomePlaceholder ++ "hooks/" ++ scriptName ++ "\"" ||
    normalized == "python \"" ++ absolute ++ "\""

def isLegacyDaemonDefault (command : String) : Bool :=
  let executable := join (join roots.remyRoot binDir) (legacyExeName roots.remyRoot)
  match quoteCommandArg executable with
  | .error _ => false
  | .ok quoted =>
    let normalized := replaceChar '\\' '/' command
    let quoted := replaceChar '\\' '/' quoted
    normalized == quoted ++ " hook enrich" || normalized == quoted ++ " hook dirty"

def isLegacy (target : TargetHook) (command : String) : Bool :=
  isLegacyDefault join roots command target.scriptName ||
    isLegacyDaemonDefault join roots command

/-- A command that is one of the installer's by its text and none of its defaults. -/
def isModified (target : TargetHook) (command : String) : Bool :=
  contains command target.scriptName || (contains command "remy-cc" && contains command " hook ")

def clearHooks (claimed : List String) (target : TargetHook) :
    List Value → Except InstallError (List Value)
  | [] => .ok []
  | hook :: list =>
    match hookCommand hook with
    | none => do return hook :: (← clearHooks claimed target list)
    | some command =>
      if claimed.contains command || isLegacy join roots target command then
        clearHooks claimed target list
      else if isModified target command then
        .error (.runtime "an existing target Hook command was modified")
      else do return hook :: (← clearHooks claimed target list)

def clearEntry (claimed : List String) (target : TargetHook) (entry : Value) :
    Except InstallError Value :=
  match entry with
  | .obj fields =>
    if matcherView fields ≠ target.matcher then .ok entry
    else match field fields "hooks" with
      | some (.arr list) => do
        return .obj (setField "hooks" (.arr (← clearHooks join roots claimed target list)) fields)
      | _ => .ok entry
  | _ => .ok entry

def clearEntries (claimed : List String) (target : TargetHook) :
    List Value → Except InstallError (List Value)
  | [] => .ok []
  | entry :: entries => do
    let cleared ← clearEntry join roots claimed target entry
    return cleared :: (← clearEntries claimed target entries)

/-- An event without entries is dropped. -/
def setEntries (event : String) (entries : List Value) (hooks : List (String × Value)) :
    List (String × Value) :=
  if entries.isEmpty then removeField event hooks else setField event (.arr entries) hooks

def clearTarget (claimed : List String) (hooks : List (String × Value)) (target : TargetHook) :
    Except InstallError (List (String × Value)) :=
  match field hooks target.event with
  | some (.arr entries) => do
    let cleared ← clearEntries join roots claimed target entries
    return setEntries target.event (retainNonempty cleared) hooks
  | _ => .ok hooks

def removePriorTargetHooks (priorClaim : Option SettingsClaim) (settings : List (String × Value)) :
    Except InstallError (List (String × Value)) :=
  match field settings "hooks" with
  | none => .ok settings
  | some (.obj hooks) => do
    let claimed := (priorClaim.elim [] SettingsClaim.hooks).map (trim ·.command)
    let hooks ← targetHooks.foldlM (clearTarget join roots claimed) hooks
    return setField "hooks" (.obj hooks) settings
  | some _ => .error (.metadata "settings hooks must be an object")

end Defaults

section Verify

def claimIsPresent (hooks : List (String × Value)) (item : ClaimedHook) : Bool :=
  match (field hooks item.event).bind asArray with
  | none => false
  | some entries => entries.any fun
    | .obj entry =>
      matcherView entry == item.matcher &&
        match (field entry "hooks").bind asArray with
        | none => false
        | some list => list.any (hookCommand · == some item.command)
    | _ => false

/-- The object under a key, empty when there is none. -/
def section? (key message : String) (settings : Value) :
    Except InstallError (List (String × Value)) :=
  match settings.get key with
  | none => .ok []
  | some (.obj fields) => .ok fields
  | some _ => .error (.metadata message)

def verifySettingsClaim (settings : Value) (claim : SettingsClaim) : Except InstallError Unit := do
  let hooks ← section? "hooks" "settings hooks must be an object" settings
  if claim.hooks.any (!claimIsPresent hooks ·) then
    throw (.runtime "a managed settings Hook was modified")
  let permissions ← section? "permissions" "settings permissions must be an object" settings
  let allow ← match field permissions "allow" with
    | none => .ok []
    | some (.arr allow) => .ok allow
    | some _ => .error (.metadata "settings permissions.allow must be an array")
  if claim.permissions.any fun permission => !allow.any (·.asStr == some permission) then
    throw (.runtime "a managed settings permission was modified")

end Verify

section Merge

def hasMatcher (matcher : String) : Value → Bool
  | .obj fields => matcherView fields == matcher
  | _ => false

def blankEntry (matcher : String) : Value :=
  .obj [("matcher", .str matcher), ("hooks", .arr [])]

/-- One hook of the template: it is pushed unless its command is there, and claimed. -/
def mergeHook (event matcher : String) (merged : List Value × List ClaimedHook) (hook : Value) :
    Except InstallError (List Value × List ClaimedHook) :=
  match (hook.get "command").bind asStr with
  | none => .error (.metadata "settings hook command must be a string")
  | some command =>
    let command := trim command
    .ok (if merged.1.any (hookCommand · == some command) then merged.1 else merged.1 ++ [hook],
      merged.2 ++ [⟨event, matcher, command⟩])

def mergeList (event matcher : String) (present list : List Value) :
    Except InstallError (List Value × List ClaimedHook) :=
  list.foldlM (mergeHook event matcher) (present, [])

/-- The hooks of a template entry go to the first entry with its matcher. -/
def mergeFirst (event matcher : String) (list : List Value) :
    List Value → Except InstallError (List Value × List ClaimedHook)
  | [] => .ok ([], [])
  | item :: items =>
    match hasMatcher matcher item, item with
    | true, .obj fields =>
      match (field fields "hooks").getD (.arr []) with
      | .arr present => do
        let (hooks, claims) ← mergeList event matcher present list
        return (.obj (setField "hooks" (.arr hooks) fields) :: items, claims)
      | _ => .error (.metadata "settings hooks list must be an array")
    | _, _ => do
      let (items, claims) ← mergeFirst event matcher list items
      return (item :: items, claims)

def mergeEntry (event : String) (merged : List Value × List ClaimedHook) (entry : Value) :
    Except InstallError (List Value × List ClaimedHook) :=
  match entry with
  | .obj fields => do
    let matcher := matcherView fields
    let destination :=
      if merged.1.any (hasMatcher matcher) then merged.1 else merged.1 ++ [blankEntry matcher]
    let list := ((field fields "hooks").bind asArray).getD []
    let (destination, claims) ← mergeFirst event matcher list destination
    return (destination, merged.2 ++ claims)
  | _ => .error (.metadata "settings hook entry must be an object")

def mergeEvent (merged : List (String × Value) × List ClaimedHook) (f : String × Value) :
    Except InstallError (List (String × Value) × List ClaimedHook) :=
  match f.2 with
  | .arr entries =>
    match (field merged.1 f.1).getD (.arr []) with
    | .arr destination => do
      let (destination, claims) ← entries.foldlM (mergeEntry f.1) (destination, merged.2)
      return (setField f.1 (.arr destination) merged.1, claims)
    | _ => .error (.metadata "settings event hooks must be arrays")
  | _ => .error (.metadata "settings template hooks must be arrays")

def mergePermission (prior : List String) (merged : List Value × List String)
    (permission : String) : List Value × List String :=
  if !merged.1.any (·.asStr == some permission) then
    (merged.1 ++ [.str permission], merged.2 ++ [permission])
  else if prior.contains permission then (merged.1, merged.2 ++ [permission])
  else merged

def setDefault (fields : List (String × Value)) (f : String × Value) : List (String × Value) :=
  if (field fields f.1).isSome then fields else setField f.1 f.2 fields

def templateHooks (rendered : Value) : Except InstallError (List (String × Value)) :=
  (section? "hooks" "settings template hooks must be arrays" rendered)

def templatePermissions (rendered : Value) : Except InstallError (List String) :=
  match ((rendered.get "permissions").bind (·.get "allow")).getD (.arr []) with
  | .arr items =>
    match items.mapM asStr with
    | some permissions => .ok permissions
    | none => .error (.metadata "settings template permissions must be strings")
  | _ => .error (.metadata "settings template permissions must be strings")

def templateEnv (rendered : Value) : Except InstallError (List (String × Value)) :=
  (section? "env" "settings env must be an object" rendered)

def mergeHooks (rendered : Value) (settings : List (String × Value)) :
    Except InstallError (List (String × Value) × List ClaimedHook) := do
  let template ← templateHooks rendered
  match (field settings "hooks").getD (.obj []) with
  | .obj hooks =>
    let (hooks, claims) ← template.foldlM mergeEvent (hooks, [])
    return (setField "hooks" (.obj hooks) settings, claims)
  | _ => .error (.metadata "settings hooks must be an object")

def mergePermissions (rendered : Value) (priorClaim : Option SettingsClaim)
    (settings : List (String × Value)) :
    Except InstallError (List (String × Value) × List String) := do
  let template ← templatePermissions rendered
  match (field settings "permissions").getD (.obj []) with
  | .obj permissions =>
    match (field permissions "allow").getD (.arr []) with
    | .arr allow =>
      let prior := priorClaim.elim [] SettingsClaim.permissions
      let (allow, claims) := template.foldl (mergePermission prior) (allow, [])
      return (setField "permissions" (.obj (setField "allow" (.arr allow) permissions)) settings,
        claims)
    | _ => .error (.metadata "settings permissions.allow must be an array")
  | _ => .error (.metadata "settings permissions must be an object")

def mergeEnv (rendered : Value) (settings : List (String × Value)) :
    Except InstallError (List (String × Value)) := do
  let template ← templateEnv rendered
  match (field settings "env").getD (.obj []) with
  | .obj env => return setField "env" (.obj (template.foldl setDefault env)) settings
  | _ => .error (.metadata "settings env must be an object")

def copyMissing (rendered : Value) (settings : List (String × Value)) (key : String) :
    List (String × Value) :=
  match rendered.get key with
  | some value => setDefault settings (key, value)
  | none => settings

def mergeSettingsDocument (join : String → String → String) (roots : Roots)
    (existing template : Value) (commands : HookCommands) (priorClaim : Option SettingsClaim) :
    Except InstallError (Value × SettingsClaim) :=
  match existing with
  | .obj settings => do
    let rendered := renderTemplate template roots.claudeRoot commands
    if let some claim := priorClaim then verifySettingsClaim existing claim
    let settings ← removePriorTargetHooks join roots priorClaim settings
    let (settings, hooks) ← mergeHooks rendered settings
    let (settings, permissions) ← mergePermissions rendered priorClaim settings
    let settings ← mergeEnv rendered settings
    let settings := ["outputStyle", "spinnerTipsEnabled"].foldl (copyMissing rendered) settings
    return (.obj (removeField "mcpServers" settings), ⟨hooks, permissions⟩)
  | _ => .error (.metadata "settings.json must be an object")

end Merge

section Remove

/-- The hooks of the entries with a matcher, without those that run a command. -/
def dropHooks (item : ClaimedHook) : Value → Value
  | .obj entry =>
    if matcherView entry ≠ item.matcher then .obj entry
    else match field entry "hooks" with
      | some (.arr list) =>
        .obj (setField "hooks" (.arr (list.filter (hookCommand · != some item.command))) entry)
      | _ => .obj entry
  | entry => entry

def removeClaimedHook (hooks : List (String × Value)) (item : ClaimedHook) :
    List (String × Value) :=
  match field hooks item.event with
  | some (.arr entries) => setEntries item.event (retainNonempty (entries.map (dropHooks item))) hooks
  | _ => hooks

/-- A section without fields is dropped. -/
def setSection (key : String) (fields settings : List (String × Value)) : List (String × Value) :=
  if fields.isEmpty then removeField key settings else setField key (.obj fields) settings

def removeClaimedHooks (claim : SettingsClaim) (settings : List (String × Value)) :
    List (String × Value) :=
  match field settings "hooks" with
  | some (.obj hooks) => setSection "hooks" (claim.hooks.foldl removeClaimedHook hooks) settings
  | _ => settings

def removeClaimedPermissions (claim : SettingsClaim) (settings : List (String × Value)) :
    List (String × Value) :=
  match field settings "permissions" with
  | some (.obj permissions) =>
    let permissions := match field permissions "allow" with
      | some (.arr allow) => setEntries "allow"
        (allow.filter fun item => !item.asStr.any claim.permissions.contains) permissions
      | _ => permissions
    setSection "permissions" permissions settings
  | _ => settings

def removeSettingsClaimLenient (existing : Value) (claim : SettingsClaim) : Value :=
  match existing with
  | .obj settings => .obj (removeClaimedPermissions claim (removeClaimedHooks claim settings))
  | existing => existing

end Remove

end RemyCC.Install
