import RemyCC.Install.Settings
import RemyCC.Relational.Query

/-!
# The install manifest

The record of what an install has put where, as a JSON document that is
validated before it is written and when it is read.
-/

namespace RemyCC.Install

open Json Json.Value Text Relational

def manifestSchemaVersion : Nat := 4

def v3SchemaVersion : Nat := 3

def owner : String := "remy-cc"

def rootClaude : String := "claude"

def rootRemy : String := "remy"

structure FileRecord where
  root : String
  path : String
  sha256 : String
  role : String
  deriving DecidableEq, Repr

namespace FileRecord

def key (r : FileRecord) : String × String := (r.root, r.path)

def toValue (r : FileRecord) : Value :=
  .obj [("root", .str r.root), ("path", .str r.path), ("sha256", .str r.sha256),
    ("owner", .str owner), ("role", .str r.role)]

end FileRecord

structure Manifest where
  suiteVersion : String
  installedAt : String
  artifactSha256 : Option String
  files : List FileRecord
  settingsClaim : SettingsClaim
  deriving DecidableEq, Repr

namespace SettingsClaim

def toValue (claim : SettingsClaim) : Value :=
  .obj [("hooks", .arr (claim.hooks.map fun hook =>
      .obj [("event", .str hook.event), ("matcher", .str hook.matcher),
        ("command", .str hook.command)])),
    ("permissions", .arr (claim.permissions.map .str))]

def orMetadata {α : Type} (message : String) (value : Option α) : Except InstallError α :=
  match value with
  | some a => .ok a
  | none => .error (.metadata message)

def hookFromValue (hook : Value) : Except InstallError ClaimedHook := do
  let entry ← orMetadata "invalid manifest Hook claim" hook.asObject
  let text (key : String) := orMetadata "invalid manifest Hook claim" ((field entry key).bind asStr)
  let event ← text "event"
  let matcher ← text "matcher"
  let command ← text "command"
  return ⟨event, matcher, command⟩

def fromValue (value : Value) : Except InstallError SettingsClaim := do
  let object ← orMetadata "manifest settings_claim must be an object" value.asObject
  let hooks ← orMetadata "invalid manifest settings_claim" ((field object "hooks").bind asArray)
  let permissions ←
    orMetadata "invalid manifest settings_claim" ((field object "permissions").bind asArray)
  let hooks ← hooks.mapM hookFromValue
  let permissions ← permissions.mapM fun permission =>
    orMetadata "invalid manifest permission claim" permission.asStr
  return ⟨hooks, permissions⟩

end SettingsClaim

open SettingsClaim (orMetadata)

def Manifest.toValue (m : Manifest) : Value :=
  .obj [("schema_version", .int manifestSchemaVersion), ("suite_version", .str m.suiteVersion),
    ("installed_at", .str m.installedAt),
    ("artifact_sha256", (m.artifactSha256.map Value.str).getD .null),
    ("files", .arr (m.files.map FileRecord.toValue)), ("settings_claim", m.settingsClaim.toValue)]

section Validation

def expectKeys (value : Value) (expected : List String) :
    Except InstallError (List (String × Value)) :=
  match value.asObject with
  | some object =>
    if object.length = expected.length ∧ expected.all fun key => (field object key).isSome then
      .ok object
    else .error (.metadata "unsupported manifest schema")
  | none => .error (.metadata "unsupported manifest schema")

/-- `Path::components` of a relative path: `.` counts in the first place only. -/
def normalComponents (value : String) : Bool :=
  let parts := split '/' value
  parts.head? ≠ some "." && !parts.contains ".."

/-- A drive letter, or another byte, before a colon. -/
def startsWithDrive (value : String) : Bool :=
  match value.toList with
  | c :: ':' :: _ => c.toNat < 128
  | _ => false

def normalizeRelativePath (value : String) : Except InstallError String :=
  let unsafePath : Except InstallError String :=
    .error (.metadata "managed path must be a non-empty POSIX relative path")
  if value = "" ∨ '\\' ∈ value.toList then unsafePath
  else if startsWith value "/" ∨ startsWithDrive value ∨ !normalComponents value then unsafePath
  else .ok value

/-- Sixty-four hexadecimal digits without a capital. -/
def isSha256 (digest : String) : Bool :=
  let chars := digest.toList
  chars.length == 64 && chars.all fun c => c.isDigit || ('a' ≤ c && c ≤ 'f')

def recordFields : List String := ["root", "path", "sha256", "owner", "role"]

def recordFromValue (raw : Value) : Except InstallError FileRecord := do
  let record ← orMetadata "invalid manifest file record" (raw.asObject.filter fun record =>
    record.length == 5 && recordFields.all fun key => (field record key).isSome)
  let text (key : String) := orMetadata "invalid manifest file identity" ((field record key).bind asStr)
  let root ← text "root"
  let path ← text "path"
  let digest ← text "sha256"
  let holder ← text "owner"
  let role ← text "role"
  if (root ≠ rootClaude ∧ root ≠ rootRemy) ∨ path = "" ∨ digest = "" ∨ holder = "" ∨ role = "" then
    throw (.metadata "invalid manifest file identity")
  if holder ≠ owner then throw (.metadata "invalid manifest owner")
  let normalized ← normalizeRelativePath path
  if !isSha256 digest then throw (.metadata "invalid manifest sha256")
  return ⟨root, normalized, digest, role⟩

def recordsFromValues : List FileRecord → List Value → Except InstallError (List FileRecord)
  | records, [] => .ok records
  | records, raw :: rest => do
    let record ← recordFromValue raw
    if record.key ∈ records.map FileRecord.key then
      throw (.metadata "duplicate manifest file record")
    recordsFromValues (records ++ [record]) rest

def sharedFields (object : List (String × Value)) :
    Except InstallError (String × String × List FileRecord × SettingsClaim) := do
  let identity := "invalid manifest identity fields"
  let suiteVersion ← orMetadata identity ((field object "suite_version").bind asStr)
  let installedAt ← orMetadata identity ((field object "installed_at").bind asStr)
  let raw ← orMetadata "manifest files must be an array" ((field object "files").bind asArray)
  let files ← recordsFromValues [] raw
  let claim ← SettingsClaim.fromValue ((field object "settings_claim").getD .null)
  return (suiteVersion, installedAt, files, claim)

def artifactFromValue : Option Value → Except InstallError (Option String)
  | some .null => .ok none
  | some (.str digest) =>
    if isSha256 digest then .ok (some digest)
    else .error (.metadata "invalid manifest artifact_sha256")
  | _ => .error (.metadata "invalid manifest artifact_sha256")

def validateV4 (value : Value) : Except InstallError Manifest := do
  let object ← expectKeys value ["schema_version", "suite_version", "installed_at",
    "artifact_sha256", "files", "settings_claim"]
  if (field object "schema_version").bind asU64 ≠ some manifestSchemaVersion then
    throw (.metadata "unsupported manifest schema")
  let artifactSha256 ← artifactFromValue (field object "artifact_sha256")
  let (suiteVersion, installedAt, files, settingsClaim) ← sharedFields object
  return ⟨suiteVersion, installedAt, artifactSha256, files, settingsClaim⟩

def parseV3 (value : Value) : Except InstallError Manifest := do
  let object ← expectKeys value ["schema_version", "suite_version", "hook_mode", "installed_at",
    "files", "settings_claim"]
  if (field object "schema_version").bind asU64 ≠ some v3SchemaVersion then
    throw (.metadata "unsupported manifest schema")
  let mode := (field object "hook_mode").bind asStr
  if mode ≠ some "python" ∧ mode ≠ some "rust" then
    throw (.metadata "invalid manifest hook_mode")
  let (suiteVersion, installedAt, files, settingsClaim) ← sharedFields object
  return ⟨suiteVersion, installedAt, none, files, settingsClaim⟩

/-- `manifest::load` of a document, by its schema version. -/
def readManifest (value : Value) : Except InstallError Manifest :=
  match (value.get "schema_version").bind asU64 with
  | some 4 => validateV4 value
  | some 3 => parseV3 value
  | _ => .error (.metadata "unsupported manifest schema")

end Validation

end RemyCC.Install
