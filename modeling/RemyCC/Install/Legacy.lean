import RemyCC.Hook.SourcePaths
import RemyCC.Install.DeadHooks
import RemyCC.Install.Deploy
import RemyCC.Json.Keys
import RemyCC.Relational.Run

/-!
# Cleaning up after the retired installer

Its manifest is inspected, and each file that has the recorded hash is planned
for deletion. Once the user has approved, the planned files are deleted without
another look at them, and the hooks of deleted scripts go out of the settings.
-/

namespace RemyCC.Install

open Files Json Json.Value Text Relational
open Hook (FileName parts trailing toStringLossy)

abbrev LinkedPath := List (PathPart FileName)

/-- What stands at each place, links among it, and what the file at a place holds, if it can
be read. -/
structure LinkedFiles (β : Type) where
  links : Links FileName
  held : List FileName → Option β

namespace LinkedFiles

variable {β : Type} (t : LinkedFiles β) (path : LinkedPath)

/-- The place of the regular file that a path leads to. -/
def file? : Option (List FileName) :=
  (t.links.resolve path).filter fun place => t.links.node place == some .file

def isFile : Bool := (t.file? path).isSome

def read : Option β := (t.file? path).bind t.held

/-- The directory that the last name of a path stands in. -/
def directory : Option (List FileName) := t.links.resolve (path.dropLast ++ [.here])

/-- The place of the last name itself, which is not followed if it is a link. -/
def entry : Option (List FileName) :=
  match path.getLast? with
  | some (.name n) => (t.directory path).map (· ++ [n])
  | _ => none

def without (place : List FileName) : LinkedFiles β :=
  { t with links.node := fun q => if q = place then none else t.links.node q }

/-- `fs::remove_file` takes away a file or a link. -/
def remove? : Option (LinkedFiles β) :=
  (t.entry path).bind fun place =>
    match t.links.node place with
    | some .file => some (t.without place)
    | some (.link _ _) => some (t.without place)
    | _ => none

/-- A file written aside and renamed over the last name of the path. -/
def write (b : β) : LinkedFiles β :=
  match t.entry path with
  | some place =>
    { links.node := fun q => if q = place then some .file else t.links.node q
      links.limit := t.links.limit
      held := fun q => if q = place then some b else t.held q }
  | none => t

def rename (target : LinkedPath) : LinkedFiles β :=
  match t.entry path, t.entry target with
  | some src, some tgt =>
    { links.node := fun q => if q = tgt then t.links.node src
        else if q = src then none else t.links.node q
      links.limit := t.links.limit
      held := fun q => if q = tgt then t.held src else t.held q }
  | _, _ => t

end LinkedFiles

section Inspect

inductive RetainReason where
  | hashMismatch
  | noHash
  | outsideClaudeRoot
  | missing
  deriving DecidableEq, Repr

structure RetainedEntry where
  path : String
  reason : RetainReason
  deriving DecidableEq, Repr

/-- A file to be deleted, with the recorded hash that it had. -/
structure Deletable where
  target : LinkedPath
  recorded : String
  deriving DecidableEq

structure LegacyPlan where
  manifestPath : LinkedPath
  oldVersion : String
  deletable : List Deletable
  retained : List RetainedEntry
  deriving DecidableEq

/-- The directory of the process, and the text of the managed root. -/
structure Site where
  cwd : LinkedPath
  claudeRoot : String

namespace Site

variable (site : Site)

def root : LinkedPath :=
  if State.isAbsolute site.claudeRoot then parts site.claudeRoot
  else site.cwd ++ parts site.claudeRoot

def legacyManifest : LinkedPath := site.root ++ parts ".installer_manifest.json"

def settings : LinkedPath := site.root ++ parts "settings.json"

/-- A record that goes up, or that does not start with the root, is not resolved. -/
def resolveRecordPath (pathText : String) : Option LinkedPath :=
  if PathPart.parent ∈ parts pathText then none
  else if State.isAbsolute pathText then
    if State.isAbsolute site.claudeRoot ∧ parts site.claudeRoot <+: parts pathText then
      some (parts pathText ++ trailing pathText)
    else none
  else some (site.root ++ parts pathText ++ trailing pathText)

end Site

variable {β : Type} (platform : Platform β) (site : Site)

def LinkedFiles.sha256 (t : LinkedFiles β) (path : LinkedPath) : Option String :=
  (t.read path).map fun b => platform.sha256 (.bytes b)

/-- `load_json`. -/
def LinkedFiles.loadJson (t : LinkedFiles β) (path : LinkedPath) :
    Option (List (String × Value)) :=
  ((t.read path).bind platform.parseBytes).bind asObject

def unreadableManifest : InstallError := .metadata "legacy installer manifest is unreadable"

def orUnreadable {α : Type} : Option α → Except InstallError α
  | some a => .ok a
  | none => .error unreadableManifest

def inspectRecord (t : LinkedFiles β) (record : Value) :
    Except InstallError (Deletable ⊕ RetainedEntry) := do
  let pathText ← orUnreadable ((record.get "path").bind asStr)
  match site.resolveRecordPath pathText with
  | none => return .inr ⟨pathText, .outsideClaudeRoot⟩
  | some resolved =>
    if t.isFile resolved = false then return .inr ⟨pathText, .missing⟩
    else
      match (record.get "sha256").bind asStr with
      | none => return .inr ⟨pathText, .noHash⟩
      | some recorded =>
        if t.sha256 platform resolved = some recorded then return .inl ⟨resolved, recorded⟩
        else return .inr ⟨pathText, .hashMismatch⟩

def inspect (t : LinkedFiles β) : Except InstallError (Option LegacyPlan) := do
  if t.isFile site.legacyManifest = false then return none
  else
    let object ← orUnreadable (t.loadJson platform site.legacyManifest)
    let oldVersion ← orUnreadable ((field object "version").bind asStr)
    let records ← orUnreadable ((field object "files").bind asArray)
    let inspected ← records.mapM (inspectRecord platform site t)
    return some ⟨site.legacyManifest, oldVersion, inspected.filterMap Sum.getLeft?,
      inspected.filterMap Sum.getRight?⟩

end Inspect

section Execute

/-- Whether a deletion is allowed, and the text of an error other than that nothing is there. -/
structure Removing where
  allowed : Bool
  error : Option String

structure CleanupLuck where
  lock : Option InstallError
  removing : Nat → Removing
  settings : Option String
  rename : Option String

inductive CleanupWarning where
  | notDeleted (target : LinkedPath) (error : String)
  | settingsUnreadable
  | settingsNotUpdated (error : String)
  | manifestNotRenamed (error : String)

structure Cleanup (β : Type) where
  files : LinkedFiles β
  deleted : List LinkedPath
  deletedScripts : List String
  warnings : List CleanupWarning

def fileName (path : LinkedPath) : Option String :=
  match path.getLast? with
  | some (.name n) => some (toStringLossy n.val)
  | _ => none

variable {β : Type} (platform : Platform β) (site : Site) (luck : CleanupLuck)

def removal (t : LinkedFiles β) (x : Deletable × Removing) : Option (LinkedFiles β) :=
  if x.2.allowed then t.remove? x.1.target else none

def deleteTarget (c : Cleanup β) (x : Deletable × Removing) : Cleanup β :=
  match removal c.files x with
  | some files =>
    { c with
      files
      deleted := c.deleted ++ [x.1.target]
      deletedScripts := c.deletedScripts ++ (fileName x.1.target).toList }
  | none =>
    match x.2.error with
    | none => c
    | some error => { c with warnings := c.warnings ++ [.notDeleted x.1.target error] }

def attempts (plan : LegacyPlan) : List (Deletable × Removing) :=
  plan.deletable.zipIdx.map fun x => (x.1, luck.removing x.2)

def deleteTargets (plan : LegacyPlan) (t : LinkedFiles β) : Cleanup β :=
  run deleteTarget ⟨t, [], [], []⟩ (attempts luck plan)

def scriptNames (c : Cleanup β) : List String :=
  c.deletedScripts.filter fun name => endsWith name ".py"

/-- The settings that hooks are to be taken out of. -/
def oldSettings (c : Cleanup β) : Option (List (String × Value)) :=
  if scriptNames c = [] ∨ c.files.isFile site.settings = false then none
  else c.files.loadJson platform site.settings

def newSettings (c : Cleanup β) : Option Value :=
  (oldSettings platform site c).bind fun fields => removeDead (scriptNames c) (.obj fields)

def removeDeadHookEntries (c : Cleanup β) : Cleanup β :=
  if scriptNames c = [] ∨ c.files.isFile site.settings = false then c
  else if c.files.loadJson platform site.settings = none then
    { c with warnings := c.warnings ++ [.settingsUnreadable] }
  else
    match newSettings platform site c, luck.settings with
    | none, _ => c
    | some document, none =>
      { c with files := c.files.write site.settings (platform.ofText (canonicalJson document)) }
    | some _, some error => { c with warnings := c.warnings ++ [.settingsNotUpdated error] }

def renameManifest (plan : LegacyPlan) (c : Cleanup β) : Cleanup β :=
  match luck.rename with
  | none =>
    let bak := plan.manifestPath.dropLast ++ parts ".installer_manifest.json.bak"
    { c with files := c.files.rename plan.manifestPath bak }
  | some error => { c with warnings := c.warnings ++ [.manifestNotRenamed error] }

def execute (plan : LegacyPlan) (t : LinkedFiles β) :
    LinkedFiles β × Except InstallError (List LinkedPath × List CleanupWarning) :=
  match luck.lock with
  | some error => (t, .error error)
  | none =>
    let c := renameManifest luck plan
      (removeDeadHookEntries platform site luck (deleteTargets luck plan t))
    (c.files, .ok (c.deleted, c.warnings))

end Execute

section Statement

variable {β : Type} (platform : Platform β) (site : Site)

/-- What the file holds has the hash that was recorded for it. -/
def Verified (c : Cleanup β) (x : Deletable × Removing) : Prop :=
  removal c.files x ≠ none → c.files.sha256 platform x.1.target = some x.1.recorded

/-- With all links followed, the name that is taken away stands below the root. -/
def Contained (c : Cleanup β) (x : Deletable × Removing) : Prop :=
  removal c.files x ≠ none → ∃ root place, c.files.links.resolve site.root = some root ∧
    c.files.entry x.1.target = some place ∧ root <+: place ∧ root ≠ place

def componentEnds : List Char :=
  ['/', ' ', '\t', '\n', '"', Char.ofNat 39, ';', '&', '|', '<', '>', '(', ')']

/-- The name of a script stands in the command as a whole component of a path. -/
def NamesScript (names : List String) (hook : Value) : Prop :=
  ∃ name ∈ names, ∃ before after,
    (normalizedCommand hook).toList = before ++ name.toList ++ after ∧
      (∀ c ∈ before.getLast?, c ∈ componentEnds) ∧ ∀ c ∈ after.head?, c ∈ componentEnds

/-- What a cleanup that starts promises of its deletions and of the settings. -/
structure FailClosed (luck : CleanupLuck) (plan : LegacyPlan) (t : LinkedFiles β) : Prop where
  verified : Meets deleteTarget (Verified platform) ⟨t, [], [], []⟩ (attempts luck plan)
  inside : Meets deleteTarget (Contained site) ⟨t, [], [], []⟩ (attempts luck plan)
  settings : ∀ fields, oldSettings platform site (deleteTargets luck plan t) = some fields →
    ∀ after, newSettings platform site (deleteTargets luck plan t) = some after →
      Cleaned (NamesScript (scriptNames (deleteTargets luck plan t))) (.obj fields) after

/-- What a planned file holds has the hash that it had when it was inspected. -/
def Unedited (t₀ : LinkedFiles β) (c : Cleanup β) (x : Deletable × Removing) : Prop :=
  removal c.files x ≠ none →
    c.files.sha256 platform x.1.target = t₀.sha256 platform x.1.target

/-- No link leads from the root to a directory outside of it. -/
def Straight (c : Cleanup β) (x : Deletable × Removing) : Prop :=
  removal c.files x ≠ none → ∃ root directory, c.files.links.resolve site.root = some root ∧
    c.files.directory x.1.target = some directory ∧ root <+: directory

structure Undisturbed (luck : CleanupLuck) (plan : LegacyPlan) (t₀ t : LinkedFiles β) : Prop where
  unedited : Meets deleteTarget (Unedited platform t₀) ⟨t, [], [], []⟩ (attempts luck plan)
  straight : Meets deleteTarget (Straight site) ⟨t, [], [], []⟩ (attempts luck plan)
  settings : ∀ fields, oldSettings platform site (deleteTargets luck plan t) = some fields →
    ∀ hooks, field fields "hooks" = some (.obj hooks) →
      Separable (NamesScript (scriptNames (deleteTargets luck plan t)))
        (scriptNames (deleteTargets luck plan t)) hooks

end Statement

section Plan

variable {β : Type} {platform : Platform β} {site : Site} {t : LinkedFiles β}

theorem inspectRecord_spec {record : Value} {x : Deletable}
    (h : inspectRecord platform site t record = .ok (.inl x)) :
    t.sha256 platform x.target = some x.recorded := by
  obtain ⟨pathText, -, h⟩ := exists_of_bind_ok h
  split at h
  · cases h
  · split at h
    · cases h
    · split at h
      · cases h
      · split at h
        · next hsha =>
          cases h
          exact hsha
        · cases h

theorem mem_mapM_ok {α γ ε : Type} {f : α → Except ε γ} {as : List α} {cs : List γ}
    (h : as.mapM f = .ok cs) {c : γ} (hc : c ∈ cs) : ∃ a ∈ as, f a = .ok c := by
  induction as generalizing cs with
  | nil =>
    cases h
    cases hc
  | cons a as ih =>
    rw [List.mapM_cons] at h
    obtain ⟨c', hc', h⟩ := exists_of_bind_ok h
    obtain ⟨cs', hcs', h⟩ := exists_of_bind_ok h
    cases h
    rcases List.mem_cons.mp hc with rfl | hc
    · exact ⟨a, List.mem_cons_self, hc'⟩
    · obtain ⟨a', ha', heq⟩ := ih hcs' hc
      exact ⟨a', List.mem_cons_of_mem a ha', heq⟩

/-- Every file that is planned had the recorded hash. -/
theorem inspect_spec {plan : LegacyPlan} (h : inspect platform site t = .ok (some plan))
    {x : Deletable} (hx : x ∈ plan.deletable) : t.sha256 platform x.target = some x.recorded := by
  unfold inspect at h
  split at h
  · cases h
  · obtain ⟨object, -, h⟩ := exists_of_bind_ok h
    obtain ⟨oldVersion, -, h⟩ := exists_of_bind_ok h
    obtain ⟨records, -, h⟩ := exists_of_bind_ok h
    obtain ⟨inspected, hinspected, h⟩ := exists_of_bind_ok h
    cases h
    obtain ⟨y, hy, heq⟩ := List.mem_filterMap.mp hx
    obtain ⟨record, -, hrecord⟩ := mem_mapM_ok hinspected hy
    cases y with
    | inl y =>
      cases heq
      exact inspectRecord_spec hrecord
    | inr y => cases heq

theorem mem_attempts (luck : CleanupLuck) {plan : LegacyPlan} {x : Deletable × Removing}
    (h : x ∈ attempts luck plan) : x.1 ∈ plan.deletable := by
  obtain ⟨y, hy, rfl⟩ := List.mem_map.mp h
  exact List.fst_mem_of_mem_zipIdx hy

end Plan

section Conditions

variable {β : Type} {platform : Platform β} {site : Site} {t₀ : LinkedFiles β} {c : Cleanup β}
variable {x : Deletable × Removing}

theorem unedited_iff (h : t₀.sha256 platform x.1.target = some x.1.recorded) :
    Verified platform c x ↔ Unedited platform t₀ c x := by
  rw [Verified, Unedited, h]

theorem entry_of_removal {t : LinkedFiles β} (h : removal t x ≠ none) :
    ∃ directory n, t.directory x.1.target = some directory ∧
      t.entry x.1.target = some (directory ++ [n]) := by
  obtain ⟨t', ht'⟩ := Option.ne_none_iff_exists'.mp h
  unfold removal at ht'
  split at ht'
  · obtain ⟨place, hplace, -⟩ := Option.bind_eq_some_iff.mp ht'
    unfold LinkedFiles.entry at hplace ⊢
    split at hplace
    · next n hlast =>
      obtain ⟨directory, hdirectory, rfl⟩ := Option.map_eq_some_iff.mp hplace
      exact ⟨directory, n, hdirectory, hplace⟩
    · cases hplace
  · cases ht'

theorem straight_iff : Contained site c x ↔ Straight site c x := by
  refine forall_congr' fun hremoval => ?_
  obtain ⟨directory, n, hdirectory, hentry⟩ := entry_of_removal hremoval
  constructor
  · rintro ⟨root, place, hroot, hplace, hbelow, hne⟩
    cases Option.some.inj (hentry.symm.trans hplace)
    rcases List.prefix_concat_iff.mp hbelow with heq | hbelow
    · exact absurd heq hne
    · exact ⟨root, directory, hroot, hdirectory, hbelow⟩
  · rintro ⟨root, directory', hroot, hdirectory', hbelow⟩
    cases Option.some.inj (hdirectory.symm.trans hdirectory')
    refine ⟨root, directory ++ [n], hroot, hentry, hbelow.trans (List.prefix_append _ _), ?_⟩
    rintro rfl
    have hlength := hbelow.length_le
    rw [List.length_append, List.length_singleton] at hlength
    exact Nat.not_succ_le_self _ hlength

theorem oldSettings_keyed {fields : List (String × Value)}
    (h : oldSettings platform site c = some fields) {hooks : List (String × Value)}
    (hhooks : field fields "hooks" = some (.obj hooks)) : Keyed hooks := by
  unfold oldSettings at h
  split at h
  · cases h
  · obtain ⟨v, hv, hfields⟩ := Option.bind_eq_some_iff.mp h
    obtain ⟨b, -, hparse⟩ := Option.bind_eq_some_iff.mp hv
    obtain ⟨text, -, hparse⟩ := Option.bind_eq_some_iff.mp hparse
    cases v with
    | obj fields' =>
      cases hfields
      exact wellKeyed_keyed (wellKeyed_field (parse_wellKeyed hparse) hhooks)
    | _ => cases hfields

theorem removeDead_of_no_hooks {names : List String} {fields : List (String × Value)}
    (h : ∀ hooks, field fields "hooks" ≠ some (.obj hooks)) :
    removeDead names (.obj fields) = none := by
  have hget : (Value.get (.obj fields) "hooks").bind asObject = none := by
    change (field fields "hooks").bind asObject = none
    cases hfield : field fields "hooks" with
    | none => rfl
    | some v =>
      cases v with
      | obj hooks => exact absurd hfield (h hooks)
      | _ => rfl
  unfold removeDead
  rw [hget]

theorem settings_iff {fields : List (String × Value)}
    (h : oldSettings platform site c = some fields) {may : Value → Prop} :
    (∀ after, newSettings platform site c = some after → Cleaned may (.obj fields) after) ↔
      ∀ hooks, field fields "hooks" = some (.obj hooks) → Separable may (scriptNames c) hooks := by
  have hnew : newSettings platform site c = removeDead (scriptNames c) (.obj fields) := by
    rw [newSettings, h, Option.bind_some]
  rw [hnew]
  by_cases hhooks : ∃ hooks, field fields "hooks" = some (.obj hooks)
  · obtain ⟨hooks, hhooks⟩ := hhooks
    rw [removeDead_cleaned_iff hhooks (oldSettings_keyed h hhooks)]
    constructor
    · intro hseparable hooks' hhooks'
      cases hhooks.symm.trans hhooks'
      exact hseparable
    · exact fun hseparable => hseparable hooks hhooks
  · rw [removeDead_of_no_hooks fun hooks hfield => hhooks ⟨hooks, hfield⟩]
    constructor
    · exact fun _ hooks hfield => absurd ⟨hooks, hfield⟩ hhooks
    · intro _ after hafter
      cases hafter

end Conditions

section Cleanups

variable {β : Type} {platform : Platform β} {site : Site} {t₀ : LinkedFiles β} {plan : LegacyPlan}

theorem failClosed_iff (h : inspect platform site t₀ = .ok (some plan)) (luck : CleanupLuck)
    (t : LinkedFiles β) :
    FailClosed platform site luck plan t ↔ Undisturbed platform site luck plan t₀ t := by
  have hverified : Meets deleteTarget (Verified platform) ⟨t, [], [], []⟩ (attempts luck plan) ↔
      Meets deleteTarget (Unedited platform t₀) ⟨t, [], [], []⟩ (attempts luck plan) := by
    rw [meets_iff_split, meets_iff_split]
    refine forall_congr' fun before => forall_congr' fun x => forall_congr' fun after =>
      forall_congr' fun hsplit => unedited_iff (inspect_spec h ?_)
    refine mem_attempts luck ?_
    rw [hsplit]
    exact List.mem_append_right before List.mem_cons_self
  have hinside : Meets deleteTarget (Contained site) ⟨t, [], [], []⟩ (attempts luck plan) ↔
      Meets deleteTarget (Straight site) ⟨t, [], [], []⟩ (attempts luck plan) := by
    rw [meets_iff_split, meets_iff_split]
    exact forall_congr' fun before => forall_congr' fun x => forall_congr' fun after =>
      forall_congr' fun _ => straight_iff
  constructor
  · rintro ⟨hv, hi, hs⟩
    exact ⟨hverified.mp hv, hinside.mp hi, fun fields hfields =>
      (settings_iff hfields).mp (hs fields hfields)⟩
  · rintro ⟨hv, hi, hs⟩
    exact ⟨hverified.mpr hv, hinside.mpr hi, fun fields hfields =>
      (settings_iff hfields).mpr (hs fields hfields)⟩

end Cleanups

/-- A cleanup that gets the lock keeps its promise exactly if no planned file has been edited
since the inspection or lies behind a link that leads out of the root, and the names of the
deleted scripts tell the hooks apart. -/
theorem execute_failClosed_iff (β : Type) (platform : Platform β) (site : Site)
    (t₀ : LinkedFiles β) (plan : LegacyPlan) (h : inspect platform site t₀ = .ok (some plan))
    (luck : CleanupLuck) (t : LinkedFiles β) :
    (luck.lock = none → FailClosed platform site luck plan t) ↔
      (luck.lock = none → Undisturbed platform site luck plan t₀ t) :=
  forall_congr' fun _ => failClosed_iff h luck t

section Example

def scriptText : String := "print('ready')\n"

def editedText : String := "print('ready')  # mine\n"

def scriptDigest : String := "e13cdff7de4a58aa927d0812d424a163af37d0619bebb12c0e68f042cd02a511"

def editedDigest : String := "f6fb353200bf12d244592704d0771897d4d465fe40c7aba0b4388166c8433556"

/-- The digests of the two texts of a script. -/
def scriptPlatform : Platform (List Char) where
  sha256
    | .bytes text => if text = scriptText.toList then scriptDigest else editedDigest
    | .manifest _ => editedDigest
  text := some
  ofText := id
  join := fun a b => a ++ "/" ++ b

def homeName : FileName := ⟨Hook.pieces ['c'], by decide⟩

def scriptName : FileName := ⟨Hook.pieces "old.py".toList, by decide⟩

def manifestName : FileName := ⟨Hook.pieces ".installer_manifest.json".toList, by decide⟩

def legacyText : String :=
  "\x7b\"version\":\"1.2.0\",\"files\":[\x7b\"path\":\"old.py\",\"sha256\":\"" ++ scriptDigest ++
    "\"\x7d]\x7d"

/-- A home with the old manifest, and with a script that it records. -/
def legacyHome (script : String) : LinkedFiles (List Char) where
  links := {
    node := fun place =>
      if place = [homeName] then some .dir
      else if place = [homeName, scriptName] ∨ place = [homeName, manifestName] then some .file
      else none
    limit := 40 }
  held := fun place =>
    if place = [homeName, scriptName] then some script.toList
    else if place = [homeName, manifestName] then some legacyText.toList
    else none

def homeSite : Site := ⟨[], "/c"⟩

def scriptPlan : LegacyPlan :=
  ⟨homeSite.legacyManifest, "1.2.0", [⟨[.name homeName, .name scriptName], scriptDigest⟩], []⟩

def openLuck : CleanupLuck := ⟨none, fun _ => ⟨true, none⟩, none, none⟩

theorem scriptPlan_inspected :
    inspect scriptPlatform homeSite (legacyHome scriptText) = .ok (some scriptPlan) := by
  decide +kernel

theorem homeSite_found (script : String) :
    (legacyHome script).links.resolve homeSite.root = some [homeName] ∧
      (legacyHome script).directory [.name homeName, .name scriptName] = some [homeName] :=
  ⟨by rfl, by rfl⟩

theorem execute_failClosed_unedited :
    FailClosed scriptPlatform homeSite openLuck scriptPlan (legacyHome scriptText) := by
  have hiff := execute_failClosed_iff (List Char) scriptPlatform homeSite (legacyHome scriptText)
    scriptPlan scriptPlan_inspected openLuck (legacyHome scriptText)
  refine hiff.mpr (fun _ => ⟨?_, ?_, ?_⟩) rfl
  · exact ⟨fun _ => rfl, trivial⟩
  · obtain ⟨hroot, hdirectory⟩ := homeSite_found scriptText
    exact ⟨fun _ => ⟨[homeName], [homeName], hroot, hdirectory, List.prefix_rfl⟩, trivial⟩
  · intro fields hfields
    have hnone : (oldSettings scriptPlatform homeSite
        (deleteTargets openLuck scriptPlan (legacyHome scriptText))).isNone = true := by
      decide +kernel
    rw [hfields] at hnone
    cases hnone

/-- A script that is edited while the plan is shown is deleted all the same. -/
theorem edited_deleted : ¬ ∀ (β : Type) (platform : Platform β) (site : Site)
    (t₀ : LinkedFiles β) (plan : LegacyPlan), inspect platform site t₀ = .ok (some plan) →
      ∀ (luck : CleanupLuck) (t : LinkedFiles β), luck.lock = none →
        FailClosed platform site luck plan t := by
  intro hall
  have hclosed := hall (List Char) scriptPlatform homeSite (legacyHome scriptText) scriptPlan
    scriptPlan_inspected openLuck (legacyHome editedText) rfl
  have hremoved : (removal (legacyHome editedText)
      (⟨[.name homeName, .name scriptName], scriptDigest⟩, ⟨true, none⟩)).isSome = true := by
    decide +kernel
  have hverified := hclosed.verified.1 (Option.isSome_iff_ne_none.mp hremoved)
  have hedited : (legacyHome editedText).sha256 scriptPlatform
      [.name homeName, .name scriptName] = some editedDigest := by
    decide +kernel
  rw [hedited] at hverified
  exact absurd hverified (by decide)

end Example

end RemyCC.Install
