import RemyCC.Index.RustImports

/-!
# The module tree of a crate

A module is a file or the body of a `mod` item. The modules that a module
declares lie in one directory, whichever of the two it is and whichever of the
two files stands for it: below the directory of the crate, under its path.
-/

namespace RemyCC.Index

open Text

inductive ModuleSource where
  | file (place : Place)
  | inline
  deriving DecidableEq, Repr

structure Module where
  source : ModuleSource
  items : List Item

def Module.file? (m : Module) : Option Place :=
  match m.source with
  | .file place => some place
  | .inline => none

/-- The files that may stand for a module in the directory of another. -/
def spellings (path : List String) : List (List String) := [fileParts path, modParts path]

/-- A crate on a disk, with the syntax of its files. -/
structure Crate where
  disk : Disk
  dir : Place
  rootFile : String
  itemsOf : Place → List Item

namespace Crate

variable (c : Crate)

def fileModule (place : Place) : Module := ⟨.file place, c.itemsOf place⟩

/-- The file of a module that lies in a directory. -/
def moduleFile (dir : Place) (name : String) : Option Module :=
  if c.disk.isFile (dir ++ [name ++ ".rs"]) then some (c.fileModule (dir ++ [name ++ ".rs"]))
  else if c.disk.isFile (dir ++ [name, "mod.rs"]) then
    some (c.fileModule (dir ++ [name, "mod.rs"]))
  else none

def childModule (dir : Place) (name : String) : List Item → Option Module
  | [] => none
  | .modInline declared body :: items =>
    if declared = name then some ⟨.inline, body⟩ else childModule dir name items
  | .modFile declared :: items =>
    if declared = name then c.moduleFile dir name else childModule dir name items
  | _ :: items => childModule dir name items

def moduleFrom : Place → Module → List String → Option Module
  | _, m, [] => some m
  | dir, m, name :: path =>
    (c.childModule dir name m.items).bind fun child => moduleFrom (dir ++ [name]) child path

def moduleAt (path : List String) : Option Module :=
  c.moduleFrom c.dir (c.fileModule (c.dir ++ [c.rootFile])) path

def fileAt (path : List String) : Option Place := (c.moduleAt path).bind Module.file?

/-- The longest part of a path that is a module of its own file. -/
def LongestFile (path part : List String) (place : Place) : Prop :=
  part <+: path ∧ c.fileAt part = some place ∧
    ∀ other place', other <+: path → c.fileAt other = some place' → other.length ≤ part.length

/-- The module that some `super` lead to from a module, with the names that follow. -/
def climb : List String → List String → Option (List String × List String)
  | within, "super" :: rest => if within = [] then none else climb within.dropLast rest
  | within, rest => some (within, rest)

/-- The module that a path starts from and the names that follow, by the rules of the 2018
edition; none for the paths of an external crate and for those that climb out of the crate. -/
def start (within : List String) (isGlobal : Bool) :
    List String → Option (List String × List String)
  | [] => none
  | head :: rest =>
    if isGlobal then none
    else if head = "crate" then some ([], rest)
    else if head = "self" then climb within rest
    else if head = "super" then climb within (head :: rest)
    else if (c.moduleAt (within ++ [head])).isSome then some (within, head :: rest)
    else none

/-- What a path means in a module. -/
def target (within : List String) (isGlobal : Bool) (path : List String) :
    Option (List String) :=
  (c.start within isGlobal path).map fun start => start.1 ++ start.2

/-- The standard layout: the modules are called by identifiers, and their files are spelled
on disk as in the source. -/
structure Standard : Prop where
  rootFile : c.rootFile ∈ crateRootFiles
  rootStands : c.disk.isFile (c.dir ++ [c.rootFile]) = true
  identifiers : ∀ path, (c.moduleAt path).isSome = true → ∀ name ∈ path,
    name ≠ "mod" ∧ '.' ∉ name.toList
  spelled : ∀ path parts, parts ≠ [] → ∀ spelled ∈ spellings parts,
    c.fileAt (path ++ parts) = some (c.dir ++ path ++ spelled) →
    caseExactOnDisk c.disk (c.dir ++ path) spelled = true

section Lookup

variable {c} {dir : Place} {m : Module} {path parts : List String} {name : String} {place : Place}

theorem moduleFrom_append (dir : Place) (m : Module) (path parts : List String) :
    c.moduleFrom dir m (path ++ parts) =
      (c.moduleFrom dir m path).bind fun m => c.moduleFrom (dir ++ path) m parts := by
  induction path generalizing dir m with
  | nil => rw [List.nil_append, List.append_nil, moduleFrom, Option.bind_some]
  | cons name path ih =>
    rw [List.cons_append, moduleFrom, moduleFrom, Option.bind_assoc]
    congr 1
    funext child
    rw [ih, List.append_assoc, List.singleton_append]

theorem moduleAt_append (path parts : List String) : c.moduleAt (path ++ parts) =
    (c.moduleAt path).bind fun m => c.moduleFrom (c.dir ++ path) m parts :=
  moduleFrom_append _ _ _ _

theorem moduleAt_of_append (h : (c.moduleAt (path ++ parts)).isSome = true) :
    (c.moduleAt path).isSome = true := by
  rw [moduleAt_append] at h
  cases hpath : c.moduleAt path with
  | some m => rfl
  | none => rw [hpath] at h; cases h

theorem moduleAt_of_fileAt (h : c.fileAt path = some place) : (c.moduleAt path).isSome = true := by
  cases hpath : c.moduleAt path with
  | some m => rfl
  | none => rw [fileAt, hpath] at h; cases h

theorem moduleFile_some (h : c.moduleFile dir name = some m) :
    ∃ place, m = c.fileModule place ∧ c.disk.isFile place = true ∧
      (place = dir ++ [name ++ ".rs"] ∨ place = dir ++ [name, "mod.rs"]) := by
  unfold moduleFile at h
  split at h
  · next hfile => exact ⟨_, (Option.some.inj h).symm, hfile, .inl rfl⟩
  · split at h
    · next hfile => exact ⟨_, (Option.some.inj h).symm, hfile, .inr rfl⟩
    · cases h

theorem childModule_file {items : List Item} (h : c.childModule dir name items = some m)
    (hplace : m.file? = some place) : m = c.fileModule place ∧ c.disk.isFile place = true ∧
      (place = dir ++ [name ++ ".rs"] ∨ place = dir ++ [name, "mod.rs"]) := by
  induction items with
  | nil => cases h
  | cons item items ih =>
    cases item with
    | modInline declared body =>
      rw [childModule] at h
      split at h
      · rw [← Option.some.inj h] at hplace
        cases hplace
      · exact ih h
    | modFile declared =>
      rw [childModule] at h
      split at h
      · obtain ⟨q, rfl, hfile, hq⟩ := moduleFile_some h
        have hsame : q = place := Option.some.inj hplace
        exact ⟨by rw [hsame], hsame ▸ hfile, hsame ▸ hq⟩
      · exact ih h
    | useDeclaration argument =>
      rw [childModule] at h
      · exact ih h
      all_goals simp
    | other children =>
      rw [childModule] at h
      · exact ih h
      all_goals simp

theorem childModule_declared {items : List Item} (h : c.childModule dir name items = some m) :
    name ∈ declaredMods items := by
  induction items with
  | nil => cases h
  | cons item items ih =>
    cases item with
    | modInline declared body =>
      rw [childModule] at h
      split at h
      · next hname => exact hname ▸ List.mem_cons_self
      · exact List.mem_cons_of_mem _ (ih h)
    | modFile declared =>
      rw [childModule] at h
      split at h
      · next hname => exact hname ▸ List.mem_cons_self
      · exact List.mem_cons_of_mem _ (ih h)
    | useDeclaration argument =>
      rw [childModule] at h
      · exact ih h
      all_goals simp
    | other children =>
      rw [childModule] at h
      · exact ih h
      all_goals simp

theorem head_declared (h : (c.moduleFrom dir m (name :: path)).isSome = true) :
    name ∈ declaredMods m.items := by
  rw [moduleFrom] at h
  cases hchild : c.childModule dir name m.items with
  | none => rw [hchild] at h; cases h
  | some child => exact childModule_declared hchild

theorem fileParts_concat (path : List String) (name : String) :
    fileParts (path ++ [name]) = path ++ [name ++ ".rs"] := by
  unfold fileParts
  rw [List.dropLast_concat, List.getLast?_concat, Option.getD_some]

theorem fileParts_append (path : List String) (h : parts ≠ []) :
    fileParts (path ++ parts) = path ++ fileParts parts := by
  obtain ⟨init, name, rfl⟩ := List.eq_nil_or_concat parts |>.resolve_left h
  rw [List.concat_eq_append, ← List.append_assoc, fileParts_concat, fileParts_concat,
    List.append_assoc]

/-- A module of its own file lies where its path says. -/
theorem fileAt_place (hne : path ≠ []) (h : c.fileAt path = some place) :
    c.disk.isFile place = true ∧
      ∃ spelled ∈ spellings path, place = c.dir ++ spelled := by
  obtain ⟨init, name, rfl⟩ := List.eq_nil_or_concat path |>.resolve_left hne
  rw [List.concat_eq_append] at h ⊢
  obtain ⟨m, hm, hfile⟩ := Option.bind_eq_some_iff.mp h
  rw [moduleAt_append] at hm
  obtain ⟨above, -, hfrom⟩ := Option.bind_eq_some_iff.mp hm
  rw [moduleFrom] at hfrom
  obtain ⟨child, hchild, hend⟩ := Option.bind_eq_some_iff.mp hfrom
  rw [moduleFrom, Option.some.injEq] at hend
  subst hend
  obtain ⟨-, hstands, hplace⟩ := childModule_file hchild hfile
  refine ⟨hstands, ?_⟩
  rcases hplace with rfl | rfl
  · exact ⟨fileParts (init ++ [name]), List.mem_cons_self, by
      rw [fileParts_concat, List.append_assoc]⟩
  · exact ⟨modParts (init ++ [name]), List.mem_cons_of_mem _ List.mem_cons_self, by
      rw [modParts, List.append_assoc, List.append_assoc]
      rfl⟩

end Lookup

end Crate

end RemyCC.Index
