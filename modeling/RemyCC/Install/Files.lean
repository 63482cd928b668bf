import RemyCC.Files.Tree
import RemyCC.Install.Settings

/-!
# Fallible file operations of the installer

A path is the list of its components. Each operation is given which of its
system calls succeed. A target that a rename cannot replace is renamed aside
and registered for deferred deletion.
-/

namespace RemyCC.Install

open Files Text

abbrev FilePath := List String

section Names

/-- `file_stem`: the name before its last dot, unless that is its first character. -/
def fileStem (name : String) : String :=
  match name.toList.reverse.dropWhile (· ≠ '.') with
  | [] => name
  | [_] => name
  | _ :: rest => String.ofList rest.reverse

/-- `with_extension`: the final extension is replaced, not appended. -/
def withExtension (extension : String) (path : FilePath) : FilePath :=
  match path.getLast? with
  | some name => path.dropLast ++ [fileStem name ++ "." ++ extension]
  | none => path

variable (pid : Nat) (target : FilePath)

def asidePath : FilePath := withExtension ("old-" ++ toString pid) target

def stagePath : FilePath :=
  target.dropLast ++ ["." ++ (target.getLast?).getD "" ++ ".remy-stage-" ++ toString pid]

def incomingPath : FilePath := withExtension ("new-" ++ toString pid) target

end Names

/-- What the calls made for one target meet. -/
structure Attempts (β : Type) where
  directory : Bool
  write : Bool
  /-- What a failed write leaves of the staged file. -/
  left : Option β
  first : Bool
  aside : Bool
  register : Bool
  second : Bool
  cleanup : Bool
  remove : Bool
  /-- The text of the error of a call that fails. -/
  error : String

/-- The files, and the entries of the register of deferred deletions. -/
structure Home (β : Type) where
  files : Tree FilePath β
  registered : List FilePath

section Register

def addEntry (merged : List FilePath) (path : FilePath) : List FilePath :=
  if merged.contains path then merged else merged ++ [path]

def mergeEntries (entries paths : List FilePath) : List FilePath :=
  (entries ++ paths).foldl addEntry []

theorem mem_foldl_addEntry {paths merged : List FilePath} {p : FilePath} :
    p ∈ paths.foldl addEntry merged ↔ p ∈ merged ∨ p ∈ paths := by
  induction paths generalizing merged with
  | nil => simp
  | cons path paths ih =>
    rw [List.foldl_cons, ih, List.mem_cons, addEntry]
    by_cases hmem : path ∈ merged
    · rw [if_pos (List.contains_iff_mem.mpr hmem)]
      constructor
      · exact fun h => h.imp_right .inr
      · rintro (h | rfl | h)
        · exact .inl h
        · exact .inl hmem
        · exact .inr h
    · rw [if_neg fun h => hmem (List.contains_iff_mem.mp h), List.mem_append, List.mem_singleton,
        or_assoc]

theorem mem_mergeEntries {entries paths : List FilePath} {p : FilePath} :
    p ∈ mergeEntries entries paths ↔ p ∈ entries ∨ p ∈ paths := by
  rw [mergeEntries, mem_foldl_addEntry, List.mem_append, or_iff_right List.not_mem_nil]

variable {β : Type}

/-- A register that cannot be written stays as it is. -/
def register (written : Bool) (paths : List FilePath) (h : Home β) : Home β :=
  if written then { h with registered := mergeEntries h.registered paths } else h

@[simp]
theorem register_files (written : Bool) (paths : List FilePath) (h : Home β) :
    (register written paths h).files = h.files := by
  unfold register
  split <;> rfl

theorem mem_register {written : Bool} {paths : List FilePath} {h : Home β} {p : FilePath} :
    p ∈ (register written paths h).registered ↔ p ∈ h.registered ∨ written = true ∧ p ∈ paths := by
  unfold register
  cases written with
  | true => rw [if_pos rfl, mem_mergeEntries]; simp
  | false => simp

end Register

section Writes

variable {β : Type} (pid : Nat) (a : Attempts β)

def removeFile (allowed : Bool) (path : FilePath) (files : Tree FilePath β) : Tree FilePath β :=
  if allowed then drop path files else files

/-- A rename and its result. -/
def moveIn {ε : Type} (allowed : Bool) (src tgt : FilePath) (error : ε) (h : Home β) :
    Home β × Except ε Unit :=
  match rename allowed src tgt h.files with
  | some files => ({ h with files }, .ok ())
  | none => (h, .error error)

def renameOver (stage target : FilePath) (h : Home β) : Home β × Except String Unit :=
  match rename a.first stage target h.files with
  | some files => ({ h with files }, .ok ())
  | none =>
    match rename a.aside target (asidePath pid target) h.files with
    | some files =>
      moveIn a.second stage target a.error
        (register a.register [asidePath pid target] { h with files })
    | none => ({ h with files := removeFile a.cleanup stage h.files }, .error a.error)

/-- The staged file, or what is left of it. -/
def writeStage (path : FilePath) (bytes : β) (files : Tree FilePath β) : Tree FilePath β :=
  if a.write then put path bytes files else fun q => if q = path then a.left else files q

def stagedWrite (target : FilePath) (bytes : β) (h : Home β) : Home β × Except String Unit :=
  if !a.directory then (h, .error a.error)
  else
    let h := { h with files := writeStage a (stagePath pid target) bytes h.files }
    if a.write then renameOver pid a (stagePath pid target) target h else (h, .error a.error)

def runtimeError (what error : String) : InstallError := .runtime (what ++ ": " ++ error)

def display (path : FilePath) : String := "/" ++ "/".intercalate path

/-- The displaced image is renamed aside and registered, and the staged one into its place. -/
def swapStaged (incoming deployed : FilePath) (h : Home β) : Home β × Except InstallError Unit :=
  let inactive := runtimeError "cannot activate the new binary" a.error
  if (h.files deployed).isNone then moveIn a.second incoming deployed inactive h
  else
    match rename a.aside deployed (asidePath pid deployed) h.files with
    | none => ({ h with files := removeFile a.cleanup incoming h.files },
        .error (runtimeError "cannot move the running image aside" a.error))
    | some files => moveIn a.second incoming deployed inactive
        (register a.register [asidePath pid deployed] { h with files })

def swapBinary (newBinary deployed : FilePath) (h : Home β) :
    Home β × Except InstallError Unit :=
  if deployed = [] then (h, .error (.runtime "deployed binary has no parent directory"))
  else if !a.directory then
    (h, .error (runtimeError ("cannot prepare " ++ display deployed.dropLast) a.error))
  else
    match h.files newBinary with
    | none => (h, .error (runtimeError "cannot stage the new binary" a.error))
    | some bytes =>
      let incoming := incomingPath pid deployed
      let h := { h with files := writeStage a incoming bytes h.files }
      if a.write then swapStaged pid a incoming deployed h
      else (h, .error (runtimeError "cannot stage the new binary" a.error))

end Writes

end RemyCC.Install
