import RemyCC.State.Schema
import RemyCC.Text

/-!
# Normalising the paths of a submission

Paths follow the Unix rules of `std::path`. What the file system answers while
a path is normalised is a parameter; nothing is assumed about it, not even that
it answers the second call of a submission for the same path as the first.
-/

namespace RemyCC.State

open Text

structure FileSystem where
  isDir : String → Bool
  pathExists : String → Bool
  canonicalize : String → Except String String
  canonicalizeAncestor : String → Except String String

inductive Component where
  | curDir
  | parentDir
  | normal (name : String)
  deriving DecidableEq, Repr

def isAbsolute (path : String) : Bool := startsWith path "/"

def component? (part : String) : Option Component :=
  if part = "" ∨ part = "." then none
  else if part = ".." then some .parentDir
  else some (.normal part)

/-- `Path::components` without the root: a dot counts only as the first part
of a relative path. -/
def components (path : String) : List Component :=
  match split '/' path with
  | "." :: parts => .curDir :: parts.filterMap component?
  | parts => parts.filterMap component?

def Component.name : Component → String
  | .curDir => "."
  | .parentDir => ".."
  | .normal name => name

def absolutePath (parts : List Component) : String :=
  "/" ++ joinWith "/" (parts.map Component.name)

/-- `PathBuf::push` of a single name. -/
def pushName (path name : String) : String :=
  if endsWith path "/" then path ++ name else path ++ "/" ++ name

def normalizeExistingProject (fs : FileSystem) (value : String) : Except StateError String :=
  if ¬ isAbsolute value ∨ ¬ fs.isDir value then
    .error (.invalidInput "project_path must be an existing absolute directory")
  else Relational.liftError .io (fs.canonicalize value)

def projectKey (projectPath : String) : String := projectPath

def normalizeProjectFilter (fs : FileSystem) (value : String) : Except StateError String := do
  if isAbsolute value then
    if fs.pathExists value then
      let normalized ← Relational.liftError .io (fs.canonicalize value)
      .ok (projectKey normalized)
    else .ok (projectKey value)
  else .error (.invalidInput "project_path filter must be absolute")

/-- The loop of `normalize_database_path` over the parts in reverse: the
longest existing ancestor and the names below it. -/
def existingAncestor (fs : FileSystem) :
    List Component → List String → Except StateError (String × List String)
  | parts, suffix =>
    if fs.pathExists (absolutePath parts.reverse) then .ok (absolutePath parts.reverse, suffix)
    else match parts with
      | .normal name :: parents => existingAncestor fs parents (name :: suffix)
      | _ => .error (.invalidInput "db_path has no existing parent")

def normalizeDatabasePath (fs : FileSystem) (value : String) : Except StateError String := do
  if isAbsolute value then
    let (existing, suffix) ← existingAncestor fs (components value).reverse []
    let normalized ← Relational.liftError .io (fs.canonicalizeAncestor existing)
    .ok (suffix.foldl pushName normalized)
  else .error (.invalidInput "db_path must be absolute")

/-- `Path::extension` of a file name: what follows the last dot, unless
nothing precedes it. -/
def extension? (name : String) : Option String :=
  let reversed := name.toList.reverse
  match reversed.dropWhile (· ≠ '.') with
  | _ :: _ :: _ => some (String.ofList (reversed.takeWhile (· ≠ '.')).reverse)
  | _ => none

def sourceExtensions : List String :=
  ["py", "c", "h", "cpp", "hpp", "cc", "cxx", "hh", "hxx", "ts", "tsx", "rs"]

def normalName? : Component → Option String
  | .normal name => some name
  | _ => none

def normalizeSourcePath (value : String) : Except StateError String :=
  if isAbsolute value ∨ value = "" then
    .error (.invalidInput "file_path must be a non-empty relative path")
  else match (components value).mapM normalName? with
    | none => .error (.invalidInput "file_path may contain only normal relative components")
    | some parts =>
      if ∃ ext ∈ (parts.getLast?.bind extension?).map asciiLower, ext ∈ sourceExtensions then
        .ok (joinWith "/" parts)
      else .error (.invalidInput "file_path has an unsupported source extension")

example : normalizeSourcePath "src//./a.PY" = .ok "src/a.PY" := by decide

example : normalizeSourcePath "src/../outside.py" =
    .error (.invalidInput "file_path may contain only normal relative components") := by decide

end RemyCC.State
