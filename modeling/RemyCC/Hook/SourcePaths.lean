import RemyCC.Files.Links
import RemyCC.State.Paths

/-!
# The paths a hook is given

A path is made canonical as far as it is there, the rest of its names are put
behind that, and what stands below the root becomes the text that a job is
submitted with. A name is what it decodes to: characters, and bytes that are
not valid.
-/

namespace RemyCC.Hook

open Files Text

inductive Piece where
  | char (c : Char)
  | invalid (bytes : List UInt8)
  deriving DecidableEq, Repr

def pieces (text : List Char) : List Piece := text.map .char

/-- What a file can be named: no separator, not empty and not one of the two dots. -/
def Proper (name : List Piece) : Prop :=
  name ≠ [] ∧ .char '/' ∉ name ∧ name ≠ pieces ['.'] ∧ name ≠ pieces ['.', '.']

instance : DecidablePred Proper := fun _ => inferInstanceAs (Decidable (_ ∧ _))

abbrev FileName := { name : List Piece // Proper name }

abbrev Disk := Links FileName

section Parsing

def part? (text : List Char) : Option (PathPart FileName) :=
  if text = [] ∨ text = ['.'] then none
  else if text = ['.', '.'] then some .parent
  else if h : Proper (pieces text) then some (.name ⟨pieces text, h⟩)
  else none

/-- The components of a path, without its root. -/
def parts (path : String) : List (PathPart FileName) := (splitChar '/' path.toList).filterMap part?

/-- A path that ends in a separator or a dot has to lead to a directory. -/
def trailing (path : String) : List (PathPart FileName) :=
  if (splitChar '/' path.toList).getLast? = some [] ∨
      (splitChar '/' path.toList).getLast? = some ['.'] then [.here] else []

end Parsing

section Canonical

variable (disk : Disk)

/-- The loop over the ancestors, from the name that is known to be missing: the
first one that is there, and the names below it. -/
def ancestor : List (PathPart FileName) → List FileName → Option (List FileName × List FileName)
  | cursor, missing =>
    match disk.resolve cursor.reverse with
    | some place => some (place, missing)
    | none =>
      match cursor with
      | .name n :: rest => ancestor rest (n :: missing)
      | _ => none

def normalizeLexically : List (PathPart FileName) → List FileName → Option (List FileName)
  | [], result => some result
  | .here :: rest, result => normalizeLexically rest result
  | .parent :: rest, result =>
    if result = [] then none else normalizeLexically rest result.dropLast
  | .name n :: rest, result => normalizeLexically rest (result ++ [n])

/-- A path as it is given: its components, and what trails them. -/
def canonicalizeAllowMissing (path trail : List (PathPart FileName)) : Option (List FileName) :=
  match disk.resolve (path ++ trail) with
  | some place => some place
  | none =>
    match path.reverse with
    | .name n :: rest =>
      (ancestor disk rest [n]).bind fun found =>
        normalizeLexically ((found.1 ++ found.2).map .name) []
    | _ => none

/-- An input is taken from the root unless it is absolute. -/
def candidate (root : List (PathPart FileName)) (input : String) : List (PathPart FileName) :=
  if State.isAbsolute input then parts input else root ++ parts input

def isDir (place : List FileName) : Bool :=
  (disk.resolve (place.map .name)).any fun found =>
    found.isEmpty || disk.node found == some .dir

end Canonical

section Texts

def decoded : Piece → Char
  | .char c => c
  | .invalid _ => Char.ofNat 0xfffd

/-- `to_string_lossy`. -/
def toStringLossy (name : List Piece) : String := String.ofList (name.map decoded)

/-- `Path::extension` of a file name. -/
def extensionOf (name : List Piece) : Option (List Piece) :=
  match name.reverse.dropWhile (· ≠ .char '.') with
  | _ :: _ :: _ => some (name.reverse.takeWhile (· ≠ .char '.')).reverse
  | _ => none

def sourceExtensions : List String :=
  ["py", "c", "h", "cpp", "hpp", "cc", "cxx", "hh", "hxx", "ts", "tsx", "rs"]

def relativePieces (relative : List FileName) : List Piece :=
  [Piece.char '/'].intercalate (relative.map Subtype.val)

def stripPrefix (front path : List FileName) : Option (List FileName) :=
  if front <+: path then some (path.drop front.length) else none

end Texts

def normalizeSourcePath (disk : Disk) (root : List (PathPart FileName)) (filePath : String) :
    Option String := do
  if filePath = "" then none
  else
    let resolved ← canonicalizeAllowMissing disk (candidate root filePath) (trailing filePath)
    let canonicalRoot ← disk.resolve root
    if isDir disk resolved then none
    else
      let relative ← stripPrefix canonicalRoot resolved
      let extension ← relative.getLast?.bind fun name => extensionOf name.val
      if asciiLower (toStringLossy extension) ∈ sourceExtensions then
        some (replaceChar '\\' '/' (toStringLossy (relativePieces relative)))
      else none

end RemyCC.Hook
