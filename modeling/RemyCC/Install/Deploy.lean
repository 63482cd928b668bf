import RemyCC.Install.Files
import RemyCC.Install.Manifest
import RemyCC.Json.Parse

/-!
# Install and uninstall

An install compares the files of the release with the disk and the manifest in
force before it writes anything, then writes the files, the settings, takes out
what is obsolete and commits by writing the new manifest.
-/

namespace RemyCC.Install

open Files Json Json.Value Text Relational

section Documents

mutual
def sortedKeys : Value → Value
  | .arr items => .arr (sortedItems items)
  | .obj fields => .obj (orderBy (compareOn Prod.fst) (sortedFields fields))
  | value => value

def sortedItems : List Value → List Value
  | [] => []
  | v :: items => sortedKeys v :: sortedItems items

def sortedFields : List (String × Value) → List (String × Value)
  | [] => []
  | f :: fields => (f.1, sortedKeys f.2) :: sortedFields fields
end

def indentation (depth : Nat) : List Char := '\n' :: List.replicate (2 * depth) ' '

mutual
/-- `to_vec_pretty`, two blanks a level. -/
def prettyChars (depth : Nat) : Value → List Char
  | .arr [] => ['[', ']']
  | .obj [] => ['{', '}']
  | .arr (v :: items) => '[' :: indentation (depth + 1) ++ prettyChars (depth + 1) v ++
      prettyItems (depth + 1) items ++ indentation depth ++ [']']
  | .obj (f :: fields) => '{' :: indentation (depth + 1) ++ prettyField (depth + 1) f ++
      prettyFields (depth + 1) fields ++ indentation depth ++ ['}']
  | value => printChars compact value

def prettyItems (depth : Nat) : List Value → List Char
  | [] => []
  | v :: items => ',' :: indentation depth ++ prettyChars depth v ++ prettyItems depth items

def prettyFields (depth : Nat) : List (String × Value) → List Char
  | [] => []
  | f :: fields => ',' :: indentation depth ++ prettyField depth f ++ prettyFields depth fields

def prettyField (depth : Nat) : String × Value → List Char
  | (key, value) => quote compact key ++ [':', ' '] ++ prettyChars depth value
end

def canonicalJson (document : Value) : List Char :=
  prettyChars 0 (sortedKeys document) ++ ['\n']

end Documents

/-- A file holds bytes or, where the installer has written it, the manifest. -/
inductive Content (β : Type) where
  | bytes (b : β)
  | manifest (m : Manifest)

/-- What the installer uses of the platform. -/
structure Platform (β : Type) where
  sha256 : Content β → String
  /-- The text of some bytes, if they are UTF-8. -/
  text : β → Option (List Char)
  ofText : List Char → β
  join : String → String → String

namespace Platform

variable {β : Type} (platform : Platform β)

def parseBytes (b : β) : Option Value :=
  (platform.text b).bind fun text => parse (String.ofList text)

def decode : Content β → Option Value
  | .bytes b => platform.parseBytes b
  | .manifest m => some m.toValue

def encode (document : Value) : Content β := .bytes (platform.ofText (canonicalJson document))

def digest (c : Content β) : String := platform.sha256 c

end Platform

structure RuntimeDescriptor where
  executable : String
  version : Nat × Nat × Nat
  implementation : String
  platform : String
  probedAt : String
  deriving DecidableEq, Repr

namespace RuntimeDescriptor

def toValue (d : RuntimeDescriptor) : Value :=
  .obj [("schema_version", .int 1), ("executable", .str d.executable),
    ("version", .arr [.int d.version.1, .int d.version.2.1, .int d.version.2.2]),
    ("implementation", .str d.implementation), ("platform", .str d.platform),
    ("probed_at", .str d.probedAt)]

def identity : List String :=
  ["schema_version", "executable", "version", "implementation", "platform"]

def sameField : Option Value → Option Value → Bool
  | some v, some w => same v w
  | none, none => true
  | _, _ => false

/-- The document, with the date of the previous one if only that has changed. -/
def document (d : RuntimeDescriptor) (previous : Option Value) : Value :=
  match previous.filter fun previous => identity.all fun key =>
      sameField (previous.get key) (d.toValue.get key) with
  | some previous =>
    match (previous.get "probed_at").bind asStr with
    | some probedAt => toValue { d with probedAt }
    | none => d.toValue
  | none => d.toValue

end RuntimeDescriptor

def descriptorRelativePath : String := "runtime/python.json"

structure ApprovedOverwrite where
  root : String
  path : String
  sha256 : String
  deriving DecidableEq, Repr

structure InstallParams where
  roots : Roots
  language : String
  suiteVersion : String
  sourceBinary : FilePath
  python : Except InstallError RuntimeDescriptor
  artifactSha256 : Option String
  approvedOverwrites : List ApprovedOverwrite

inductive Warning where
  | probeUnavailable (message : String)
  | notRecorded (residue : FilePath)
  | deferred (residue : FilePath)
  | registrationFailed (error : String)
  | languageNotSaved (error : String)
  | daemonUnknown (error : String)
  | settingsSkipped (message : String)
  deriving DecidableEq, Repr

structure InstallReport where
  changed : List String
  warnings : List Warning
  postCommitFailed : Bool
  deriving DecidableEq, Repr

inductive Payload (β : Type) where
  | bytes (b : Content β)
  | file (source : FilePath)

structure PlannedFile (β : Type) where
  root : String
  path : String
  payload : Payload β
  digest : String
  role : String
  executable : Bool

namespace PlannedFile

variable {β : Type}

def key (f : PlannedFile β) : String × String := (f.root, f.path)

def record (f : PlannedFile β) : FileRecord := ⟨f.root, f.path, f.digest, f.role⟩

end PlannedFile

section Places

def components (path : String) : FilePath :=
  (split '/' path).filter fun part => part ≠ "" && part ≠ "."

variable (roots : Roots)

def rootDir (root : String) : FilePath :=
  components (if root = rootClaude then roots.claudeRoot else roots.remyRoot)

def place (root path : String) : FilePath := rootDir roots root ++ components path

def settingsFile : FilePath := place roots rootClaude "settings.json"

def manifestFile : FilePath := place roots rootRemy "install/manifest.json"

def descriptorFile : FilePath := place roots rootRemy descriptorRelativePath

end Places

/-- What the program carries: the embedded payload and the settings template. -/
structure Release (β : Type) where
  entries : List (String × β)
  template : Option Value

section Planning

variable {β : Type} (platform : Platform β)

def splitInclusive : List Char → List (List Char)
  | [] => []
  | '\n' :: rest => ['\n'] :: splitInclusive rest
  | c :: rest =>
    match splitInclusive rest with
    | [] => [[c]]
    | line :: lines => (c :: line) :: lines

def isDescription (rest : String) : Bool :=
  startsWith rest " " || startsWith rest "\t" ||
    rest.toList.reverse.dropWhile (fun c => c = '\r' ∨ c = '\n') = []

/-- The first description line among as many lines, replaced. -/
def patchLines (description : String) : Nat → List String → Option (List String)
  | 0, _ => none
  | _ + 1, [] => none
  | n + 1, line :: lines =>
    match stripPrefix "description:" line with
    | some rest =>
      if isDescription rest then some (("description: " ++ description ++ "\n") :: lines) else none
    | none => (patchLines description n lines).map (line :: ·)

def descriptionScanLines : Nat := 8

def patchText (description : String) (text : List Char) : List Char :=
  let lines := (splitInclusive text).map String.ofList
  ((patchLines description descriptionScanLines lines).map
    fun lines => lines.flatMap String.toList).getD text

def nonemptyText (value : Option Value) : Option String :=
  (value.bind asStr).filter fun text => text ≠ ""

def patchEntry (description : String) (entry : String × β) : String × β :=
  (entry.1, ((platform.text entry.2).map fun text =>
    platform.ofText (patchText description text)).getD entry.2)

def patchSkill (language : String) (contents : List (String × β)) (skill : String × Value) :
    List (String × β) :=
  match (nonemptyText (skill.2.get language)).or (nonemptyText (skill.2.get "en")) with
  | none => contents
  | some description =>
    let skillPath := "skills/" ++ skill.1 ++ "/SKILL.md"
    match contents.findIdx? fun c => c.1 == skillPath with
    | none => contents
    | some i => contents.modify i (patchEntry platform description)

def skillDescriptionsEntry : String := "skills/skill_descriptions.json"

def patchDescriptions (language : String) (contents : List (String × β)) :
    Except InstallError (List (String × β)) :=
  match contents.find? fun c => c.1 == skillDescriptionsEntry with
  | none => .ok contents
  | some descriptions =>
    match (platform.parseBytes descriptions.2).bind asObject with
    | some skills => .ok (skills.foldl (patchSkill platform language) contents)
    | none => .error (.metadata "skill_descriptions.json is invalid")

def roleFor (path : String) : String :=
  if startsWith path "hooks/" then "python_hook"
  else if startsWith path "skills/" then "claude_skill"
  else if startsWith path "output-styles/" then "output_style"
  else if startsWith path "remy-src/" then "cli_runtime"
  else "claude_protocol"

def planBytes (root path role : String) (content : Content β) : PlannedFile β where
  root := root
  path := path
  payload := .bytes content
  digest := platform.digest content
  role := role
  executable := false

def planClaudeContents (release : Release β) (language : String) :
    Except InstallError (List (PlannedFile β)) := do
  let contents ← patchDescriptions platform language release.entries
  let directive := if language = "zh-CN" then "Always respond in Chinese-simplified\n"
    else "Always respond in English\n"
  return (contents ++ [("language.md", platform.ofText directive.toList)]).map fun c =>
    planBytes platform rootClaude c.1 (roleFor c.1) (.bytes c.2)

end Planning

/-- What the calls of one run meet. -/
structure Luck (β : Type) where
  pid : Nat
  now : String
  /-- The error of acquiring the install lock. -/
  lock : Option InstallError
  attempts : FilePath → Attempts (Content β)
  /-- The error of reading a file that is there. -/
  read : FilePath → Option String
  /-- The error of copying a target to its backup. -/
  backup : FilePath → Option String
  /-- The staging files that are more than a day old. -/
  aged : FilePath → Bool
  /-- Whether the register can be written or removed after a sweep. -/
  sweptRegister : Bool
  manifestWrite : Option String
  legacyRename : Bool
  registerMcp : Option String
  saveLanguage : Option String
  /-- Whether the daemon lock is held, or the error of probing it. -/
  daemon : Except String Bool

section Preflight

variable {β : Type} (platform : Platform β) (params : InstallParams) (luck : Luck β)

def ioError (error : String) : InstallError := runtimeError "filesystem operation failed" error

/-- The digest of the file at a path, if there is one. -/
def diskDigest (files : Tree FilePath (Content β)) (path : FilePath) :
    Except InstallError (Option String) :=
  match files path with
  | none => .ok none
  | some content =>
    match luck.read path with
    | some error => .error (ioError error)
    | none => .ok (some (platform.digest content))

def loadManifest (roots : Roots) (files : Tree FilePath (Content β)) :
    Except InstallError (Option Manifest) :=
  match files (manifestFile roots) with
  | none => .ok none
  | some (.manifest m) => .ok (some m)
  | some (.bytes b) =>
    match luck.read (manifestFile roots), platform.parseBytes b with
    | none, some value =>
      match value.asObject with
      | some _ => (readManifest value).map some
      | none => .error (.metadata "managed metadata must be a JSON object")
    | _, _ => .error (.metadata "invalid managed metadata: manifest.json")

def planBinary (files : Tree FilePath (Content β)) : Except InstallError (PlannedFile β) :=
  match files params.sourceBinary with
  | none => .error (.runtime "no usable remy-cc binary was found")
  | some content =>
    match luck.read params.sourceBinary with
    | some error => .error (ioError error)
    | none => .ok {
        root := rootRemy
        path := binDir ++ "/" ++ managedExeName params.roots.remyRoot
        payload := .file params.sourceBinary
        digest := platform.digest content
        role := "daemon_binary"
        executable := true }

def planDescriptor (files : Tree FilePath (Content β)) (descriptor : RuntimeDescriptor) :
    PlannedFile β :=
  planBytes platform rootRemy descriptorRelativePath "runtime_descriptor"
    (platform.encode (descriptor.document
      ((files (descriptorFile params.roots)).bind platform.decode)))

def plan (release : Release β) (files : Tree FilePath (Content β)) :
    Except InstallError (List (PlannedFile β) × List Warning) := do
  let contents ← planClaudeContents platform release params.language
  let binary ← planBinary platform params luck files
  match params.python with
  | .ok descriptor =>
    return (contents ++ [binary, planDescriptor platform params files descriptor], [])
  | .error error => return (contents ++ [binary], [.probeUnavailable error.message])

structure Decision where
  write : Bool
  backup : Bool
  deriving DecidableEq, Repr

def approvedFor (file : PlannedFile β) : Option ApprovedOverwrite :=
  params.approvedOverwrites.find? fun approved =>
    approved.root == file.root && approved.path == file.path

/-- What is to be done about a planned file, by its digest on disk and its old record. -/
def decideFile (file : PlannedFile β) (disk : Option String) (old : Option FileRecord) :
    Except InstallError (Decision ⊕ UnmanagedConflict) :=
  match disk, old with
  | none, _ => .ok (.inl ⟨true, false⟩)
  | some disk, old =>
    if disk = file.digest then .ok (.inl ⟨false, false⟩)
    else match old with
      | some old =>
        if disk = old.sha256 then .ok (.inl ⟨true, false⟩)
        else .error (.runtime "a managed target changed after preflight")
      | none =>
        match approvedFor params file with
        | some approved =>
          if approved.sha256 = disk then .ok (.inl ⟨true, true⟩)
          else .error (.runtime
            ("an approved target changed after preflight: " ++ file.root ++ "/" ++ file.path))
        | none => .ok (.inr ⟨file.root, file.path, disk⟩)

/-- The records of a manifest in the order of their keys. -/
def oldRecords (manifest : Option Manifest) : List FileRecord :=
  orderBy (compareLex (compareOn FileRecord.root) (compareOn FileRecord.path)) ((manifest.map Manifest.files).getD [])

structure Checked (β : Type) where
  decided : List (PlannedFile β × Decision)
  conflicts : List UnmanagedConflict

def checkFiles (files : Tree FilePath (Content β)) (records : List FileRecord) :
    List (PlannedFile β) → Except InstallError (Checked β)
  | [] => .ok ⟨[], []⟩
  | file :: rest => do
    let disk ← diskDigest platform luck files (place params.roots file.root file.path)
    let decision ← decideFile params file disk (records.find? fun r => r.key == file.key)
    let checked ← checkFiles files (records.filter fun r => r.key != file.key) rest
    return match decision with
      | .inl decision => { checked with decided := (file, decision) :: checked.decided }
      | .inr conflict => { checked with
          decided := (file, ⟨false, false⟩) :: checked.decided
          conflicts := conflict :: checked.conflicts }

/-- The records of no planned file. -/
def unplanned (planned : List (PlannedFile β)) (records : List FileRecord) : List FileRecord :=
  records.filter fun r => !(planned.map PlannedFile.key).contains r.key

def findObsolete (files : Tree FilePath (Content β)) : List FileRecord →
    Except InstallError (List FilePath)
  | [] => .ok []
  | r :: records => do
    let target := place params.roots r.root r.path
    match ← diskDigest platform luck files target with
    | none => findObsolete files records
    | some disk =>
      if disk = r.sha256 then return target :: (← findObsolete files records)
      else throw (.runtime "an obsolete managed target was modified")

end Preflight

section Settings

variable {β : Type} (platform : Platform β) (luck : Luck β)

def loadSettings (path : FilePath) (files : Tree FilePath (Content β)) :
    Except InstallError Value :=
  match files path with
  | none => .ok (.obj [])
  | some content =>
    match luck.read path, platform.decode content with
    | none, some (.obj fields) => .ok (.obj fields)
    | none, some _ => .error (.metadata "settings.json must be an object")
    | _, _ => .error (.metadata "settings.json is invalid")

/-- The merged settings with their claim, and the bytes if they are to be written. -/
def planSettings (release : Release β) (params : InstallParams) (manifest : Option Manifest)
    (files : Tree FilePath (Content β)) :
    Except InstallError (Option (Content β) × SettingsClaim) := do
  let path := settingsFile params.roots
  let existing ← loadSettings platform luck path files
  let template ← SettingsClaim.orMetadata "settings template is invalid" release.template
  let commands ← hookCommands platform.join params.roots
  let (merged, claim) ← mergeSettingsDocument platform.join params.roots existing template commands
    (manifest.map Manifest.settingsClaim)
  let bytes := platform.encode merged
  let disk ← diskDigest platform luck files path
  return (if disk = some (platform.digest bytes) then none else some bytes, claim)

end Settings

/-- What an install will do, all of it decided before the first write. -/
structure Plan (β : Type) where
  decided : List (PlannedFile β × Decision)
  obsolete : List FilePath
  settings : Option (Content β)
  manifest : Manifest
  warnings : List Warning

section Prepare

variable {β : Type} (platform : Platform β) (release : Release β) (params : InstallParams)
variable (luck : Luck β)

def newManifest (old : Option Manifest) (planned : List (PlannedFile β)) (claim : SettingsClaim) :
    Manifest :=
  let files := orderBy (compareLex (compareOn FileRecord.root) (compareOn FileRecord.path))
    (planned.map PlannedFile.record)
  let unchanged := old.filter fun old => old.suiteVersion == params.suiteVersion &&
    old.artifactSha256 == params.artifactSha256 && old.files == files && old.settingsClaim == claim
  { suiteVersion := params.suiteVersion
    installedAt := (unchanged.map Manifest.installedAt).getD luck.now
    artifactSha256 := params.artifactSha256
    files := files
    settingsClaim := claim }

def refuseConflicts (conflicts : List UnmanagedConflict) : Except InstallError Unit :=
  if conflicts.isEmpty then .ok () else .error (.unmanagedConflicts conflicts)

def prepare (files : Tree FilePath (Content β)) : Except InstallError (Plan β) := do
  let old ← loadManifest platform luck params.roots files
  let (planned, warnings) ← plan platform params luck release files
  let checked ← checkFiles platform params luck files (oldRecords old) planned
  refuseConflicts checked.conflicts
  let obsolete ← findObsolete platform params luck files (unplanned planned (oldRecords old))
  let (settings, claim) ← planSettings platform luck release params old files
  return {
    decided := checked.decided
    obsolete := obsolete
    settings := settings
    manifest := newManifest params luck old planned claim
    warnings := warnings }

end Prepare

section Runs

variable {β : Type} (platform : Platform β) (params : InstallParams) (luck : Luck β)

abbrev Run (β : Type) (α : Type) := Home (Content β) → Home (Content β) × Except InstallError α

/-- The operator `?`: an error ends the run, with what it has changed. -/
def andThen {α γ : Type} (r : Home (Content β) × Except InstallError α) (next : α → Run β γ) :
    Home (Content β) × Except InstallError γ :=
  match r.2 with
  | .error error => (r.1, .error error)
  | .ok a => next a r.1

def backupPath (path : FilePath) : FilePath :=
  match path.getLast? with
  | some name => path.dropLast ++ [name ++ ".bak"]
  | none => path

def written (r : Home (Content β) × Except String Unit) :
    Home (Content β) × Except InstallError Unit :=
  (r.1, r.2.mapError ioError)

def deployBinary (source target : FilePath) : Run β Unit := fun h =>
  if source = target ∧ (h.files target).isSome then (h, .ok ())
  else
    match h.files source, luck.read source with
    | some content, none => written (stagedWrite luck.pid (luck.attempts target) target content h)
    | none, _ => (h, .error (ioError (luck.attempts source).error))
    | _, some error => (h, .error (ioError error))

def backupFirst (file : PlannedFile β) (target : FilePath) : Run β (List String) := fun h =>
  match luck.backup target, h.files target with
  | none, some content => ({ h with files := put (backupPath target) content h.files },
      .ok [file.root ++ "/" ++ file.path ++ ".bak"])
  | some error, _ => (h, .error (ioError error))
  | none, none => (h, .error (ioError (luck.attempts target).error))

def writePayload (file : PlannedFile β) (target : FilePath) : Run β Unit := fun h =>
  match file.payload with
  | .bytes content => written (stagedWrite luck.pid (luck.attempts target) target content h)
  | .file source => deployBinary luck source target h

/-- One planned file, and what the report says has changed. -/
def deployFile (file : PlannedFile β) (decision : Decision) : Run β (List String) := fun h =>
  let target := place params.roots file.root file.path
  if !decision.write then (h, .ok [])
  else
    andThen (if decision.backup then backupFirst luck file target h else (h, .ok []))
      fun changed h => andThen (writePayload luck file target h)
        fun _ h => (h, .ok (changed ++ [file.root ++ "/" ++ file.path]))

def deployFiles : List (PlannedFile β × Decision) → Run β (List String)
  | [], h => (h, .ok [])
  | f :: rest, h => andThen (deployFile params luck f.1 f.2 h)
      fun changed h => andThen (deployFiles rest h) fun more h => (h, .ok (changed ++ more))

def writeSettings (settings : Option (Content β)) : Run β (List String) := fun h =>
  let target := settingsFile params.roots
  match settings with
  | none => (h, .ok [])
  | some content => andThen (written (stagedWrite luck.pid (luck.attempts target) target content h))
      fun _ h => (h, .ok ["claude/settings.json"])

def removeOrDefer (target : FilePath) (h : Home (Content β)) : Home (Content β) × List Warning :=
  let a := luck.attempts target
  match remove a.remove target h.files with
  | .removed files => ({ h with files }, [])
  | .notFound => (h, [])
  | .failed =>
    let moved := rename a.aside target (asidePath luck.pid target) h.files
    let residue := if moved.isSome then asidePath luck.pid target else target
    (register a.register [residue] { h with files := moved.getD h.files },
      (if a.register then [] else [.notRecorded residue]) ++ [.deferred residue])

def removeAll : List FilePath → Home (Content β) → Home (Content β) × List Warning
  | [], h => (h, [])
  | target :: rest, h =>
    let first := removeOrDefer luck target h
    let others := removeAll rest first.1
    (others.1, first.2 ++ others.2)

def writeManifest (m : Manifest) : Run β Unit := fun h =>
  match validateV4 m.toValue, luck.manifestWrite with
  | .error error, _ => (h, .error error)
  | .ok _, some error => (h, .error (runtimeError "cannot write manifest" error))
  | .ok _, none =>
    ({ h with files := put (manifestFile params.roots) (.manifest m) h.files }, .ok ())

def legacyManifestName : String := ".installer_manifest.json"

def postCommit (h : Home (Content β)) : Home (Content β) × List Warning × Bool :=
  let legacy := place params.roots rootClaude legacyManifestName
  let first := match rename luck.legacyRename legacy (backupPath legacy) h.files with
    | some files => ({ h with files }, [])
    | none => removeOrDefer luck legacy h
  let second := removeOrDefer luck (place params.roots rootRemy "install/transaction.json") first.1
  (second.1, first.2 ++ second.2 ++ (luck.registerMcp.map Warning.registrationFailed).toList ++
    (luck.saveLanguage.map Warning.languageNotSaved).toList,
    luck.registerMcp.isSome || luck.saveLanguage.isSome)

end Runs

section Sweep

variable {β : Type} (roots : Roots) (luck : Luck β)

def isManaged (path : FilePath) : Bool :=
  (components roots.claudeRoot).isPrefixOf path || (components roots.remyRoot).isPrefixOf path

/-- What a sweep of one entry makes of the files, and whether the entry remains. -/
def sweepEntry (path : FilePath) (files : Tree FilePath (Content β)) :
    Tree FilePath (Content β) × Bool :=
  if !isManaged roots path then (files, false)
  else match remove (luck.attempts path).remove path files with
    | .removed files => (files, false)
    | .notFound => (files, false)
    | .failed => (files, true)

def sweepEntries : List FilePath → Tree FilePath (Content β) →
    Tree FilePath (Content β) × List FilePath
  | [], files => (files, [])
  | path :: rest, files =>
    let first := sweepEntry roots luck path files
    let others := sweepEntries rest first.1
    (others.1, (if first.2 then [path] else []) ++ others.2)

/-- A register that cannot be written or removed keeps its entries. -/
def sweepRegister (h : Home (Content β)) : Home (Content β) :=
  let swept := sweepEntries roots luck h.registered h.files
  { files := swept.1
    registered := if luck.sweptRegister then swept.2 else h.registered }

def allDigits (s : String) : Bool := s ≠ "" && s.toList.all Char.isDigit

/-- `s.rsplit_once(sep)`, the part after the separator. -/
def afterLast (sep s : String) : Option String :=
  (beforeFirst (String.ofList sep.toList.reverse) (String.ofList s.toList.reverse)).map
    fun after => String.ofList after.toList.reverse

def stripSuffix (tail s : String) : Option String :=
  if endsWith s tail then some (String.ofList (s.toList.take (s.length - tail.length))) else none

def isStaleStagingName (name : String) : Bool :=
  startsWith name "." &&
    match afterLast ".remy-stage-" name with
    | some pid => allDigits pid
    | none => ((stripSuffix ".tmp" name).bind (afterLast ".")).any allDigits

/-- The staging files of interrupted runs, where the call that removes them succeeds. -/
def sweepStaleStaging (h : Home (Content β)) : Home (Content β) :=
  { h with files := fun path =>
      if isManaged roots path && luck.aged path && (path.getLast?).any isStaleStagingName &&
        (luck.attempts path).remove then none
      else h.files path }

def sweep (h : Home (Content β)) : Home (Content β) :=
  sweepStaleStaging roots luck (sweepRegister roots luck h)

end Sweep

section Entries

variable {β : Type} (platform : Platform β)

/-- All writes of content. -/
def writeAll (params : InstallParams) (luck : Luck β) (plan : Plan β) : Run β (List String) :=
  fun h =>
    andThen (deployFiles params luck plan.decided h) fun changed h =>
    andThen (writeSettings params luck plan.settings h) fun more h => (h, .ok (changed ++ more))

/-- The deletions, and the manifest that commits the run. -/
def commit (params : InstallParams) (luck : Luck β) (plan : Plan β) (changed : List String) :
    Run β InstallReport := fun h =>
  let removed := removeAll luck plan.obsolete h
  andThen (writeManifest params luck plan.manifest removed.1) fun _ h =>
    let committed := postCommit params luck h
    (committed.1, .ok ⟨changed, plan.warnings ++ removed.2 ++ committed.2.1, committed.2.2⟩)

def install (release : Release β) (params : InstallParams) (luck : Luck β) :
    Run β InstallReport := fun h =>
  match luck.lock with
  | some error => (h, .error error)
  | none =>
    let h := sweep params.roots luck h
    match prepare platform release params luck h.files with
    | .error error => (h, .error error)
    | .ok plan => andThen (writeAll params luck plan h) (commit params luck plan)

end Entries

end RemyCC.Install
