import Mathlib.Data.List.Induction
import Mathlib.Data.List.Infix
import RemyCC.Index.RustModules

/-!
# Imports that `use` items lead to

A `use` item that stands at the top of its file leads from the directory of the
file's own module to the longest part of its path that is a module of its own
file. The directory is also the start for the items of an inline module and for
the paths with a leading `::`, which mean something else.
-/

namespace RemyCC.Index

open Text

section Sites

namespace UseTree

mutual

/-- The paths of a tree, with whether they have a leading `::`. -/
def rooted : UseTree → List (Bool × List String)
  | .name text => [(false, [text])]
  | .keyword kind => [(false, [kind])]
  | .scoped path last =>
    (match path with
      | some path => path.rooted
      | none => [(true, [])]).map fun front : Bool × List String =>
        (front.1, front.2 ++ last.toList)
  | .renamed path =>
    match path with
    | some path => path.rooted
    | none => []
  | .scopedList path items =>
    let prefixes := match path with
      | some path => path.rooted
      | none => [(true, [])]
    match items with
    | some items => (rootedOf items).flatMap fun tail =>
        prefixes.map fun front => (front.1, front.2 ++ tail.2)
    | none => []
  | .list items => rootedOf items
  | .wildcard inner =>
    match inner with
    | some inner => inner.rooted
    | none => []
  | .other => []

def rootedOf : List UseTree → List (Bool × List String)
  | [] => []
  | item :: items => item.rooted ++ rootedOf items

end

mutual

theorem map_snd_rooted : ∀ tree : UseTree, tree.rooted.map Prod.snd = tree.paths
  | .name _ => rfl
  | .keyword _ => rfl
  | .scoped (some path) last => by
    rw [rooted, paths, ← map_snd_rooted path, List.map_map, List.map_map]
    rfl
  | .scoped none _ => by
    rw [rooted, paths]
    rfl
  | .renamed (some path) => by rw [rooted, paths, map_snd_rooted path]
  | .renamed none => rfl
  | .scopedList (some path) (some items) => by
    rw [rooted, paths, extend, ← map_snd_rooted path, ← map_snd_rootedOf items,
      List.map_flatMap, List.flatMap_map]
    simp only [List.map_map]
    rfl
  | .scopedList none (some items) => by
    rw [rooted, paths, extend, ← map_snd_rootedOf items, List.map_flatMap, List.flatMap_map]
    rfl
  | .scopedList (some _) none => rfl
  | .scopedList none none => rfl
  | .list items => by rw [rooted, paths, map_snd_rootedOf items]
  | .wildcard (some inner) => by rw [rooted, paths, map_snd_rooted inner]
  | .wildcard none => rfl
  | .other => rfl

theorem map_snd_rootedOf : ∀ items : List UseTree, (rootedOf items).map Prod.snd = pathsOf items
  | [] => rfl
  | item :: items => by
    rw [rootedOf, pathsOf, List.map_append, map_snd_rooted item, map_snd_rootedOf items]

end

end UseTree

/-- A path of a `use` item, with the inline modules of the file that it stands in. -/
structure UseSite where
  inside : List String
  isGlobal : Bool
  path : List String

def argumentSites (inside : List String) (argument : Option UseTree) : List UseSite :=
  match argument with
  | some tree => tree.rooted.map fun path => ⟨inside, path.1, path.2⟩
  | none => []

mutual

def Item.sites (inside : List String) : Item → List UseSite
  | .modFile _ => []
  | .modInline name body => sitesOf (inside ++ [name]) body
  | .useDeclaration argument => argumentSites inside argument
  | .other children => sitesOf inside children

def sitesOf (inside : List String) : List Item → List UseSite
  | [] => []
  | item :: items => item.sites inside ++ sitesOf inside items

end

theorem map_path_argumentSites (inside : List String) (argument : Option UseTree) :
    (argumentSites inside argument).map UseSite.path = argumentPaths argument := by
  cases argument with
  | none => rfl
  | some tree =>
    rw [argumentSites, argumentPaths, ← tree.map_snd_rooted, List.map_map]
    rfl

mutual

theorem map_path_sites : ∀ (item : Item) (inside : List String),
    (item.sites inside).map UseSite.path = item.uses.flatMap argumentPaths
  | .modFile _, _ => rfl
  | .modInline name body, inside => by
    rw [Item.sites, Item.uses, map_path_sitesOf body]
  | .useDeclaration argument, inside => by
    rw [Item.sites, Item.uses, map_path_argumentSites, List.flatMap_singleton]
  | .other children, inside => by rw [Item.sites, Item.uses, map_path_sitesOf children]

/-- The walk through a file meets the paths of its sites. -/
theorem map_path_sitesOf : ∀ (items : List Item) (inside : List String),
    (sitesOf inside items).map UseSite.path = (usesOf items).flatMap argumentPaths
  | [], _ => rfl
  | item :: items, inside => by
    rw [sitesOf, usesOf, List.map_append, List.flatMap_append, map_path_sites item,
      map_path_sitesOf items]

end

end Sites

section Places

variable {place root : Place} {part name : String} {parts : List String}

theorem take_commonParts (place root : Place) :
    root.take (commonParts place root) = place.take (commonParts place root) := by
  induction place generalizing root with
  | nil => cases root <;> rfl
  | cons a place ih =>
    cases root with
    | nil => rfl
    | cons b root =>
      rw [commonParts]
      split
      · next hab => rw [List.take_succ_cons, List.take_succ_cons, ih, hab]
      · rfl

theorem commonParts_append (root rest : Place) : commonParts (root ++ rest) root = root.length := by
  induction root with
  | nil => cases rest <;> rfl
  | cons a root ih => rw [List.cons_append, commonParts, if_pos rfl, ih, List.length_cons]

theorem startsWith_joinWith (part : String) (parts : List String) :
    startsWith (joinWith "/" (part :: parts)) ".." = startsWith part ".." := by
  unfold startsWith joinWith
  simp only [String.toList_ofList]
  rw [List.map_cons]
  cases parts with
  | nil => rw [List.map_nil, List.intercalate_singleton]
  | cons next parts =>
    rw [List.map_cons, List.intercalate_cons_cons]
    rcases part.toList with _ | ⟨a, _ | ⟨b, rest⟩⟩
    · rfl
    · simp [List.isPrefixOf]
    · simp [List.isPrefixOf]

theorem relpath_append (root : Place) (part : String) (parts : List String) :
    relpath (root ++ part :: parts) root = joinWith "/" (part :: parts) := by
  unfold relpath relpathParts
  simp only [commonParts_append, Nat.sub_self, List.replicate_zero, List.nil_append,
    List.drop_left]
  exact if_neg (List.cons_ne_nil _ _)

/-- A path that does not lead up stays below the directory. -/
theorem prefix_of_relpath (h : startsWith (relpath place root) ".." = false) : root <+: place := by
  have hcommon : root.length ≤ commonParts place root := by
    by_contra hless
    obtain ⟨n, hn⟩ : ∃ n, root.length - commonParts place root = n + 1 :=
      ⟨root.length - commonParts place root - 1, by omega⟩
    unfold relpath relpathParts at h
    simp only [hn, List.replicate_succ, List.cons_append] at h
    rw [if_neg (List.cons_ne_nil _ _), startsWith_joinWith] at h
    cases h
  have hsame := take_commonParts place root
  rw [List.take_of_length_le hcommon] at hsame
  rw [hsame]
  exact List.take_prefix _ _

theorem startsWith_name (h : '.' ∉ name.toList) :
    startsWith name ".." = false ∧ startsWith (name ++ ".rs") ".." = false := by
  unfold startsWith
  rw [String.toList_append]
  cases hname : name.toList with
  | nil => decide
  | cons c rest =>
    have hc : '.' ≠ c := fun heq => h (hname ▸ heq ▸ List.mem_cons_self)
    simp [List.isPrefixOf, hc]

end Places

section Lookups

variable {disk : Disk} {root base : Place} {parts names : List String} {rel : String} {n : Nat}

theorem record_eq_some : record disk root base parts = some rel ↔
    disk.isFile (base ++ parts) = true ∧ caseExactOnDisk disk base parts = true ∧
      startsWith (relpath (base ++ parts) root) ".." = false ∧
      relpath (base ++ parts) root = rel := by
  unfold record
  constructor
  · intro h
    split at h
    · next hfile =>
      rw [Bool.and_eq_true] at hfile
      dsimp only at h
      split at h
      · cases h
      · next hinside => exact ⟨hfile.1, hfile.2, by simpa using hinside, Option.some.inj h⟩
    · cases h
  · rintro ⟨hfile, hexact, hinside, rfl⟩
    rw [hfile, hexact, if_pos (by rfl)]
    dsimp only
    rw [hinside, if_neg Bool.false_ne_true]

/-- The lookup ends at the longest part that is found. -/
theorem tryPrefixes_some (h : tryPrefixes disk root base names n = some rel) :
    ∃ k < n, (∃ parts ∈ spellings (names.take (k + 1)),
        record disk root base parts = some rel) ∧
      ∀ j, k < j → j < n → ∀ parts ∈ spellings (names.take (j + 1)),
        record disk root base parts = none := by
  induction n with
  | zero => cases h
  | succ n ih =>
    rw [tryPrefixes] at h
    have hlast : ∀ j, n < j → j < n + 1 → ∀ parts ∈ spellings (names.take (j + 1)),
        record disk root base parts = none := fun j hn hj => by omega
    split at h
    · next hfile =>
      cases h
      exact ⟨n, n.lt_succ_self, ⟨_, List.mem_cons_self, hfile⟩, hlast⟩
    · next hfile =>
      split at h
      · next hmod =>
        cases h
        exact ⟨n, n.lt_succ_self, ⟨_, List.mem_cons_of_mem _ List.mem_cons_self, hmod⟩, hlast⟩
      · next hmod =>
        obtain ⟨k, hk, hhit, hlonger⟩ := ih h
        refine ⟨k, Nat.lt_succ_of_lt hk, hhit, fun j hkj hj parts hparts => ?_⟩
        rcases Nat.lt_succ_iff_lt_or_eq.mp hj with hj | rfl
        · exact hlonger j hkj hj parts hparts
        · rcases List.mem_pair.mp hparts with rfl | rfl
          · exact hfile
          · exact hmod

/-- A file of a longer path lies in the directory of the shorter one's file or below it. -/
theorem exists_beyond {init more parts longer : List String} {name : String} (hmore : more ≠ [])
    (hparts : parts ∈ spellings (init ++ [name]))
    (hlonger : longer ∈ spellings (init ++ name :: more)) :
    ∃ lead last next rest, parts = lead ++ [last] ∧ longer = lead ++ next :: rest ∧
      ∃ word ∈ name :: more, next = word ∨ next = word ++ ".rs" := by
  have hfile : fileParts (init ++ name :: more) = init ++ name :: fileParts more := by
    rw [Crate.fileParts_append init (List.cons_ne_nil _ _)]
    exact congrArg (init ++ ·) (Crate.fileParts_append [name] hmore)
  have hmod : modParts (init ++ name :: more) = init ++ name :: modParts more :=
    List.append_assoc _ _ _
  rcases List.mem_pair.mp hparts with rfl | rfl
  · refine ⟨init, name ++ ".rs", name, ?_⟩
    rcases List.mem_pair.mp hlonger with rfl | rfl
    · exact ⟨fileParts more, Crate.fileParts_concat init name, hfile, name, List.mem_cons_self,
        .inl rfl⟩
    · exact ⟨modParts more, Crate.fileParts_concat init name, hmod, name, List.mem_cons_self,
        .inl rfl⟩
  · refine ⟨init ++ [name], "mod.rs", ?_⟩
    cases more with
    | nil => exact absurd rfl hmore
    | cons word more =>
      rcases List.mem_pair.mp hlonger with rfl | rfl
      · cases more with
        | nil =>
          exact ⟨word ++ ".rs", [], rfl, by rw [hfile, List.append_assoc]; rfl, word,
            List.mem_cons_of_mem _ List.mem_cons_self, .inr rfl⟩
        | cons word' more =>
          refine ⟨word, fileParts (word' :: more), rfl, ?_, word,
            List.mem_cons_of_mem _ List.mem_cons_self, .inl rfl⟩
          rw [hfile, List.append_assoc, List.singleton_append]
          exact congrArg (init ++ name :: ·)
            (Crate.fileParts_append [word] (List.cons_ne_nil word' more))
      · exact ⟨word, modParts more, rfl, by rw [hmod, List.append_assoc]; rfl, word,
          List.mem_cons_of_mem _ List.mem_cons_self, .inl rfl⟩

/-- What lies beyond an import inside the project lies inside it too. -/
theorem record_beyond {init more longer : List String} {name : String}
    (hroot : disk.isFile root = false) (hmore : more ≠ [])
    (hparts : parts ∈ spellings (init ++ [name])) (hrecord : record disk root base parts = some rel)
    (hlonger : longer ∈ spellings (init ++ name :: more))
    (hdots : ∀ word ∈ name :: more, '.' ∉ word.toList)
    (hfile : disk.isFile (base ++ longer) = true)
    (hexact : caseExactOnDisk disk base longer = true) :
    record disk root base longer ≠ none := by
  obtain ⟨lead, last, next, rest, rfl, rfl, word, hword, hnext⟩ :=
    exists_beyond hmore hparts hlonger
  obtain ⟨hstands, -, hinside, -⟩ := record_eq_some.mp hrecord
  have hplain : startsWith next ".." = false := by
    rcases hnext with rfl | rfl
    · exact (startsWith_name (hdots _ hword)).1
    · exact (startsWith_name (hdots _ hword)).2
  have hbelow : root <+: base ++ lead := by
    have hprefix := prefix_of_relpath hinside
    rw [← List.append_assoc, List.prefix_concat_iff] at hprefix
    rcases hprefix with heq | hprefix
    · rw [heq, List.append_assoc, hstands] at hroot
      cases hroot
    · exact hprefix
  obtain ⟨down, hdown⟩ := hbelow
  rw [← List.append_assoc, ← hdown] at hinside
  have hlongerInside : startsWith (relpath (base ++ (lead ++ next :: rest)) root) ".." = false := by
    rw [← List.append_assoc, ← hdown]
    cases down with
    | nil => rwa [List.append_nil, relpath_append, startsWith_joinWith]
    | cons part down =>
      rw [List.append_assoc, List.cons_append, relpath_append, startsWith_joinWith] at hinside ⊢
      exact hinside
  rw [record_eq_some.mpr ⟨hfile, hexact, hlongerInside, rfl⟩]
  exact Option.some_ne_none _

end Lookups

section Starts

variable {c : Crate} {root file base : Place} {within path names : List String}

theorem not_mem_moduleFileBasenames {name : String} (hmod : name ≠ "mod")
    (hname : name ≠ "main" ∧ name ≠ "lib") : name ++ ".rs" ∉ moduleFileBasenames := by
  unfold moduleFileBasenames
  simp only [List.mem_cons, List.not_mem_nil, or_false, not_or]
  have hcancel : ∀ word : String, name ≠ word → name ++ ".rs" ≠ word ++ ".rs" :=
    fun word hne heq => hne (String.append_left_inj ".rs" |>.mp heq)
  exact ⟨hcancel "mod" hmod, hcancel "lib" hname.2, hcancel "main" hname.1⟩

theorem stem_append (name : String) : stem (name ++ ".rs") = name := by
  unfold stem
  rw [String.toList_append, List.reverse_append]
  simp

theorem dirname_concat (place : Place) (name : String) : dirname (place ++ [name]) = place :=
  List.dropLast_concat

theorem moduleDir_concat (place : Place) (basename : String) : moduleDir (place ++ [basename]) =
    if moduleFileBasenames.contains basename then place else place ++ [stem basename] := by
  unfold moduleDir
  rw [List.getLast?_concat, Option.getD_some, dirname_concat]

theorem fileAt_nil : c.fileAt [] = some (c.dir ++ [c.rootFile]) := rfl

/-- The files of the modules below a module that has a file of its own lie in one directory. -/
theorem moduleDir_eq (hstd : c.Standard) (h : c.fileAt within = some file)
    (hlast : ∀ name ∈ within.getLast?, name ≠ "main" ∧ name ≠ "lib") :
    moduleDir file = c.dir ++ within := by
  rcases List.eq_nil_or_concat within with rfl | ⟨init, name, rfl⟩
  · have hbasename : moduleFileBasenames.contains c.rootFile = true :=
      List.contains_iff_mem.mpr (List.mem_cons_of_mem _ hstd.rootFile)
    rw [← Option.some.inj (fileAt_nil.symm.trans h), moduleDir_concat, if_pos hbasename,
      List.append_nil]
  · rw [List.concat_eq_append] at h hlast ⊢
    have hne : init ++ [name] ≠ [] := List.append_ne_nil_of_right_ne_nil _ (List.cons_ne_nil _ _)
    obtain ⟨-, spelled, hspelled, rfl⟩ := Crate.fileAt_place hne h
    rcases List.mem_pair.mp hspelled with rfl | rfl
    · have hmod : name ≠ "mod" := (hstd.identifiers _ (Crate.moduleAt_of_fileAt h) name
        (List.mem_append_right _ List.mem_cons_self)).1
      have hbasename := not_mem_moduleFileBasenames hmod
        (hlast name (by rw [List.getLast?_concat]; rfl))
      rw [Crate.fileParts_concat, ← List.append_assoc, moduleDir_concat, if_neg, stem_append,
        List.append_assoc]
      rwa [List.contains_iff_mem]
    · rw [modParts, ← List.append_assoc, moduleDir_concat, if_pos (by decide)]

/-- The walk for the root of the crate starts at the module or above it. -/
theorem exists_dirname (h : c.fileAt within = some file) :
    ∃ above, above <+: within ∧ dirname file = c.dir ++ above := by
  rcases List.eq_nil_or_concat within with rfl | ⟨init, name, rfl⟩
  · exact ⟨[], List.prefix_rfl, by
      rw [← Option.some.inj (fileAt_nil.symm.trans h), dirname_concat, List.append_nil]⟩
  · rw [List.concat_eq_append] at h ⊢
    have hne : init ++ [name] ≠ [] := List.append_ne_nil_of_right_ne_nil _ (List.cons_ne_nil _ _)
    obtain ⟨-, spelled, hspelled, rfl⟩ := Crate.fileAt_place hne h
    rcases List.mem_pair.mp hspelled with rfl | rfl
    · exact ⟨init, List.prefix_append _ _, by
        rw [Crate.fileParts_concat, ← List.append_assoc, dirname_concat]⟩
    · exact ⟨init ++ [name], List.prefix_rfl, by
        rw [modParts, ← List.append_assoc, dirname_concat]⟩

section Walk

variable {disk : Disk} {place : Place} {name : String}

theorem findCrateRoot_here
    (h : (crateRootFiles.any fun marker => disk.isFile (place ++ [marker])) = true) :
    findCrateRoot disk root place.reverse = some place := by
  cases hplace : place.reverse with
  | nil =>
    obtain rfl := List.reverse_eq_nil_iff.mp hplace
    rw [findCrateRoot]
    exact if_pos h
  | cons name above =>
    rw [findCrateRoot, ← hplace, List.reverse_reverse, if_pos h]

theorem findCrateRoot_above
    (h : (crateRootFiles.any fun marker => disk.isFile (place ++ [name] ++ [marker])) = false) :
    findCrateRoot disk root (place ++ [name]).reverse =
      if place ++ [name] = root then none else findCrateRoot disk root place.reverse := by
  have hcursor : (name :: place.reverse).reverse = place ++ [name] := by
    rw [List.reverse_cons, List.reverse_reverse]
  rw [List.reverse_concat, findCrateRoot, hcursor, h, if_neg Bool.false_ne_true]

end Walk

/-- No directory between a module and the root of its crate has the files of a crate. -/
def Crate.Unnested (c : Crate) (within : List String) : Prop :=
  ∀ above, above <+: within → above ≠ [] → ∀ marker ∈ crateRootFiles,
    c.disk.isFile (c.dir ++ above ++ [marker]) = false

theorem findCrateRoot_eq (hstd : c.Standard) (hunnested : c.Unnested within)
    (h : findCrateRoot c.disk root (c.dir ++ within).reverse = some base) : base = c.dir := by
  induction within using List.reverseRecOn with
  | nil =>
    rw [List.append_nil, findCrateRoot_here] at h
    · exact (Option.some.inj h).symm
    · exact List.any_eq_true.mpr ⟨c.rootFile, hstd.rootFile, hstd.rootStands⟩
  | append_singleton init name ih =>
    rw [← List.append_assoc, findCrateRoot_above] at h
    · split at h
      · cases h
      · exact ih (fun above habove => hunnested above
          (habove.trans (List.prefix_append init [name]))) h
    · rw [List.any_eq_false]
      intro marker hmarker
      have hfree := hunnested (init ++ [name]) List.prefix_rfl
        (List.append_ne_nil_of_right_ne_nil _ (List.cons_ne_nil _ _)) marker hmarker
      rw [← List.append_assoc] at hfree
      rw [hfree]
      exact Bool.false_ne_true

theorem climb_super (within rest : List String) : Crate.climb within ("super" :: rest) =
    if within = [] then none else Crate.climb within.dropLast rest := by
  rw [Crate.climb]

theorem climb_nil (within : List String) : Crate.climb within [] = some (within, []) := rfl

theorem climb_cons {head : String} (h : head ≠ "super") (within rest : List String) :
    Crate.climb within (head :: rest) = some (within, head :: rest) := by
  rw [Crate.climb]
  intro rest' heq
  exact h (List.cons.inj heq).1

theorem climbDirs_cons {head : String} (h : head ≠ "super") (base : Place) (rest : List String) :
    climbDirs base (head :: rest) = (base, head :: rest) := by
  rw [climbDirs]
  intro rest' heq
  exact h (List.cons.inj heq).1

theorem climb_length {left : List String × List String}
    (h : Crate.climb within names = some left) : left.2.length ≤ names.length := by
  induction names generalizing within with
  | nil =>
    rw [climb_nil, Option.some.injEq] at h
    rw [← h]
  | cons head rest ih =>
    by_cases hsuper : head = "super"
    · rw [hsuper, climb_super] at h
      split at h
      · cases h
      · exact Nat.le_succ_of_le (ih h)
    · rw [climb_cons hsuper, Option.some.injEq] at h
      rw [← h]

theorem climb_same {above : List String} (h : Crate.climb within names = some (above, names)) :
    above = within := by
  cases names with
  | nil =>
    rw [climb_nil, Option.some.injEq] at h
    exact (Prod.mk.inj h).1.symm
  | cons head rest =>
    by_cases hsuper : head = "super"
    · rw [hsuper, climb_super] at h
      split at h
      · cases h
      · have hlength := climb_length h
        rw [List.length_cons] at hlength
        omega
    · rw [climb_cons hsuper, Option.some.injEq] at h
      exact (Prod.mk.inj h).1.symm

/-- The directories that `super` leads to are those of the modules above. -/
theorem climbDirs_eq (dir : Place) {left : List String × List String}
    (h : Crate.climb within names = some left) :
    climbDirs (dir ++ within) names = (dir ++ left.1, left.2) := by
  induction names generalizing within with
  | nil =>
    rw [climb_nil, Option.some.injEq] at h
    rw [← h]
    rfl
  | cons head rest ih =>
    by_cases hsuper : head = "super"
    · rw [hsuper, climb_super] at h
      split at h
      · cases h
      · next hne =>
        rw [hsuper, climbDirs, dirname, List.dropLast_append_of_ne_nil hne]
        exact ih h
    · rw [climb_cons hsuper, Option.some.injEq] at h
      rw [climbDirs_cons hsuper, ← h]

end Starts

section Landing

/-- Where the files of a path are looked up, with the names that they are looked up for. -/
def lookup (disk : Disk) (root : Place) (items : List Item) (file : Place) :
    List String → Option (Place × List String)
  | [] => none
  | head :: rest =>
    if head = "crate" then
      (findCrateRoot disk root (dirname file).reverse).map fun base => (base, rest)
    else if head = "self" then some (moduleDir file, rest)
    else if head = "super" then some (climbDirs (dirname (moduleDir file)) rest)
    else if (declaredMods items).contains head then some (moduleDir file, head :: rest)
    else none

theorem usePathImport_eq (disk : Disk) (root : Place) (items : List Item) (file : Place)
    (path : List String) : usePathImport disk root items file path =
      (lookup disk root items file path).bind fun found => tryModule disk root found.1 found.2 := by
  cases path with
  | nil => rfl
  | cons head rest =>
    rw [usePathImport, lookup]
    split
    · rw [Option.bind_map]
      rfl
    · split
      · rfl
      · split
        · rfl
        · split <;> rfl

/-- No file stands where a part of the names would. -/
def Vacant (disk : Disk) (base : Place) (names : List String) : Prop :=
  ∀ part, part <+: names → part ≠ [] → ∀ spelled ∈ spellings part,
    disk.isFile (base ++ spelled) = false

namespace Crate

variable (c : Crate) (root file : Place) (items : List Item) (within : List String)

/-- The files that stand where a part of the names would are the files of these modules. -/
def Clear (names : List String) : Prop :=
  ∀ part, part <+: names → part ≠ [] → ∀ spelled ∈ spellings part,
    c.disk.isFile (c.dir ++ within ++ spelled) = true →
    caseExactOnDisk c.disk (c.dir ++ within) spelled = true →
    c.fileAt (within ++ part) = some (c.dir ++ within ++ spelled)

/-- The item stands outside of inline modules, and its file is not called like that of a
crate; for paths from the root of the crate, no crate lies within the crate. -/
def Direct (site : UseSite) : Prop :=
  if site.path.head? = some "crate" then c.Unnested within
  else site.inside = [] ∧ ∀ name ∈ within.getLast?, name ≠ "main" ∧ name ≠ "lib"

/-- Nothing is found, or the path is direct, it starts from a module of the crate, and only
files of modules lie on its way. -/
def Settled (site : UseSite) : Prop :=
  ∀ base names, lookup c.disk root items file site.path = some (base, names) →
    Vacant c.disk base names ∨ c.Direct within site ∧
      ∃ above, c.start (within ++ site.inside) site.isGlobal site.path = some (above, names) ∧
        c.Clear above names

/-- The import is the file of the longest part of the path that is a module of its own file. -/
def Lands (site : UseSite) (rel : String) : Prop :=
  ∃ target part place, c.target (within ++ site.inside) site.isGlobal site.path = some target ∧
    c.LongestFile target part place ∧ rel = relpath place root

end Crate

section Proofs

variable {c : Crate} {root file base : Place} {items : List Item} {within names : List String}
  {site : UseSite} {rel : String}

/-- A direct path is looked up below the module that it starts from. -/
theorem lookup_direct (hstd : c.Standard) (hfile : c.fileAt within = some file)
    (hdirect : c.Direct within site)
    (hlookup : lookup c.disk root items file site.path = some (base, names)) {above : List String}
    (hstart : c.start (within ++ site.inside) site.isGlobal site.path = some (above, names)) :
    base = c.dir ++ above := by
  obtain ⟨inside, isGlobal, path⟩ := site
  dsimp only at hlookup hstart
  cases path with
  | nil => cases hlookup
  | cons head rest =>
    rw [lookup] at hlookup
    rw [Crate.start] at hstart
    split at hstart
    · cases hstart
    simp only [Crate.Direct, List.head?_cons, Option.some.injEq] at hdirect
    by_cases hcrate : head = "crate"
    · rw [if_pos hcrate] at hlookup hstart hdirect
      obtain ⟨found, hfound, heq⟩ := Option.map_eq_some_iff.mp hlookup
      obtain ⟨rfl, rfl⟩ := Prod.mk.inj heq
      obtain ⟨rfl, -⟩ := Prod.mk.inj (Option.some.inj hstart)
      obtain ⟨lower, hlower, hdir⟩ := exists_dirname hfile
      rw [hdir] at hfound
      rw [List.append_nil]
      exact findCrateRoot_eq hstd (fun part hpart => hdirect part (hpart.trans hlower)) hfound
    · rw [if_neg hcrate] at hlookup hstart hdirect
      obtain ⟨rfl, hlast⟩ := hdirect
      rw [List.append_nil, moduleDir_eq hstd hfile hlast] at *
      by_cases hself : head = "self"
      · rw [if_pos hself] at hlookup hstart
        obtain ⟨rfl, rfl⟩ := Prod.mk.inj (Option.some.inj hlookup)
        rw [climb_same hstart]
      · rw [if_neg hself] at hlookup hstart
        by_cases hsuper : head = "super"
        · rw [if_pos hsuper] at hlookup hstart
          rw [hsuper, climb_super] at hstart
          split at hstart
          · cases hstart
          · next hne =>
            rw [dirname, List.dropLast_append_of_ne_nil hne, climbDirs_eq c.dir hstart,
              Option.some.injEq] at hlookup
            exact (Prod.mk.inj hlookup).1.symm
        · rw [if_neg hsuper] at hlookup hstart
          split at hlookup
          · split at hstart
            · obtain ⟨rfl, -⟩ := Prod.mk.inj (Option.some.inj hlookup)
              obtain ⟨rfl, -⟩ := Prod.mk.inj (Option.some.inj hstart)
              rfl
            · cases hstart
          · cases hlookup

theorem take_ne_nil {k : Nat} (h : k < names.length) : names.take (k + 1) ≠ [] := by
  cases names with
  | nil => cases h
  | cons name names => exact List.cons_ne_nil _ _

theorem tryModule_vacant (h : Vacant c.disk base names) :
    tryModule c.disk root base names = none := by
  cases hfound : tryModule c.disk root base names with
  | none => rfl
  | some rel =>
    obtain ⟨k, hk, ⟨parts, hparts, hrecord⟩, -⟩ := tryPrefixes_some hfound
    have hstands := (record_eq_some.mp hrecord).1
    rw [h _ (List.take_prefix _ _) (take_ne_nil hk) parts hparts] at hstands
    cases hstands

theorem mem_spellings_append {longer spelled : List String} (hne : longer ≠ [])
    (h : spelled ∈ spellings (within ++ longer)) :
    ∃ parts ∈ spellings longer, spelled = within ++ parts := by
  rcases List.mem_pair.mp h with rfl | rfl
  · exact ⟨fileParts longer, List.mem_cons_self, Crate.fileParts_append within hne⟩
  · exact ⟨modParts longer, List.mem_cons_of_mem _ List.mem_cons_self, List.append_assoc _ _ _⟩

/-- A lookup below a module, on a way with no files but those of modules, ends at the longest
part of the path that is a module of its own file. -/
theorem tryModule_lands (hstd : c.Standard) (hroot : c.disk.isFile root = false)
    (hclear : c.Clear within names)
    (h : tryModule c.disk root (c.dir ++ within) names = some rel) :
    ∃ part place, c.LongestFile (within ++ names) part place ∧ rel = relpath place root := by
  obtain ⟨k, hk, ⟨parts, hparts, hrecord⟩, hlonger⟩ := tryPrefixes_some h
  obtain ⟨hstands, hexact, -, rfl⟩ := record_eq_some.mp hrecord
  have hfound := hclear _ (List.take_prefix _ _) (take_ne_nil hk) parts hparts hstands hexact
  refine ⟨within ++ names.take (k + 1), c.dir ++ within ++ parts,
    ⟨(List.prefix_append_right_inj _).mpr (List.take_prefix _ _), hfound, ?_⟩, rfl⟩
  intro other place hother hplace
  by_contra hlength
  rw [List.length_append, List.length_take, Nat.min_eq_left hk] at hlength
  have hbound := hother.length_le
  rw [List.length_append] at hbound
  obtain ⟨j, hj⟩ : ∃ j, other.length = within.length + (j + 1) :=
    ⟨other.length - within.length - 1, by omega⟩
  have hpart : other = within ++ names.take (j + 1) := by
    rw [List.prefix_iff_eq_take.mp hother, hj, List.take_append, List.take_of_length_le (by omega),
      Nat.add_sub_cancel_left]
  have hjne : names.take (j + 1) ≠ [] := take_ne_nil (by omega)
  rw [hpart] at hplace
  obtain ⟨hfile, spelled, hspelled, rfl⟩ := Crate.fileAt_place
    (List.append_ne_nil_of_right_ne_nil _ hjne) hplace
  obtain ⟨longer, hspelling, rfl⟩ := mem_spellings_append hjne hspelled
  rw [← List.append_assoc] at hfile hplace
  have hsplit : names.take (k + 1) = names.take k ++ [names[k]] :=
    (List.take_append_getElem hk).symm
  have hjsplit : names.take (j + 1) =
      names.take k ++ names[k] :: (names.drop (k + 1)).take (j - k) := by
    rw [show j + 1 = (k + 1) + (j - k) by omega, List.take_add, hsplit, List.append_assoc,
      List.singleton_append]
  have hmore : (names.drop (k + 1)).take (j - k) ≠ [] := by
    rw [Ne, ← List.length_eq_zero_iff, List.length_take, List.length_drop]
    omega
  have hdots : ∀ word ∈ names[k] :: (names.drop (k + 1)).take (j - k), '.' ∉ word.toList := by
    intro word hword
    refine (hstd.identifiers _ (Crate.moduleAt_of_fileAt hplace) word ?_).2
    rw [hjsplit]
    exact List.mem_append_right _ (List.mem_append_right _ hword)
  rw [hsplit] at hparts
  refine record_beyond hroot hmore hparts hrecord (hjsplit ▸ hspelling) hdots hfile
    (hstd.spelled within _ hjne longer hspelling hplace) ?_
  exact hlonger j (by omega) (by omega) longer hspelling

/-- A path that settles leads to the longest part of it that is a module of its own file. -/
theorem usePathImport_lands (hstd : c.Standard) (hroot : c.disk.isFile root = false)
    (hfile : c.fileAt within = some file) (hsettled : c.Settled root file items within site)
    (h : usePathImport c.disk root items file site.path = some rel) :
    c.Lands root within site rel := by
  rw [usePathImport_eq] at h
  obtain ⟨found, hlookup, hfound⟩ := Option.bind_eq_some_iff.mp h
  rcases hsettled found.1 found.2 hlookup with hvacant | ⟨hdirect, above, hstart, hclear⟩
  · rw [tryModule_vacant hvacant] at hfound
    cases hfound
  · rw [lookup_direct hstd hfile hdirect hlookup hstart] at hfound
    obtain ⟨part, place, hlongest, rfl⟩ := tryModule_lands hstd hroot hclear hfound
    exact ⟨above ++ found.2, part, place, by rw [Crate.target, hstart]; rfl, hlongest, rfl⟩

end Proofs

section Imports

variable {disk : Disk} {root file base : Place} {items : List Item} {names path : List String}
  {rel : String}

theorem mem_foldl_addNew {found imports : List String} :
    rel ∈ found.foldl addNew imports ↔ rel ∈ imports ∨ rel ∈ found := by
  induction found generalizing imports with
  | nil => simp
  | cons first found ih =>
    rw [List.foldl_cons, ih, List.mem_cons]
    unfold addNew
    split
    · next hmem =>
      have hfirst := List.contains_iff_mem.mp hmem
      constructor
      · exact Or.imp_right .inr
      · rintro (h | rfl | h)
        · exact .inl h
        · exact .inl hfirst
        · exact .inr h
    · rw [List.mem_append, List.mem_singleton, or_assoc]

/-- An import is one of a `mod` declaration or one of a path of a `use` item. -/
theorem mem_resolveImports : rel ∈ resolveImports disk root items file ↔
    (∃ name ∈ items.filterMap Item.modFile?,
        tryModule disk root (moduleDir file) [name] = some rel) ∨
      ∃ site ∈ sitesOf [] items, usePathImport disk root items file site.path = some rel := by
  have hused : ((usesOf items).flatMap fun argument =>
      (argumentPaths argument).filterMap (usePathImport disk root items file)) =
        ((sitesOf [] items).map UseSite.path).filterMap (usePathImport disk root items file) := by
    rw [map_path_sitesOf, List.filterMap_flatMap]
  unfold resolveImports
  dsimp only
  rw [hused, mem_foldl_addNew, List.mem_append, List.mem_filterMap, List.mem_filterMap]
  constructor
  · rintro (hnone | hdeclared | ⟨path, hpath, hfound⟩)
    · cases hnone
    · exact .inl hdeclared
    · obtain ⟨site, hsite, rfl⟩ := List.mem_map.mp hpath
      exact .inr ⟨site, hsite, hfound⟩
  · rintro (hdeclared | ⟨site, hsite, hfound⟩)
    · exact .inr (.inl hdeclared)
    · exact .inr (.inr ⟨site.path, List.mem_map_of_mem hsite, hfound⟩)

/-- The path, relative to the root of the project, of a file below it. -/
def InProject (disk : Disk) (root : Place) (rel : String) : Prop :=
  ∃ part parts, disk.isFile (root ++ part :: parts) = true ∧ rel = joinWith "/" (part :: parts)

theorem record_inProject {parts : List String} (hroot : disk.isFile root = false)
    (h : record disk root base parts = some rel) : InProject disk root rel := by
  obtain ⟨hfile, -, hinside, rfl⟩ := record_eq_some.mp h
  obtain ⟨down, hdown⟩ := prefix_of_relpath hinside
  rw [← hdown] at hfile ⊢
  cases down with
  | nil =>
    rw [List.append_nil, hroot] at hfile
    cases hfile
  | cons part down => exact ⟨part, down, hfile, relpath_append root part down⟩

theorem tryModule_inProject (hroot : disk.isFile root = false)
    (h : tryModule disk root base names = some rel) : InProject disk root rel := by
  obtain ⟨k, -, ⟨parts, -, hrecord⟩, -⟩ := tryPrefixes_some h
  exact record_inProject hroot hrecord

theorem resolveImports_inProject (hroot : disk.isFile root = false)
    (h : rel ∈ resolveImports disk root items file) : InProject disk root rel := by
  rcases mem_resolveImports.mp h with ⟨name, -, hname⟩ | ⟨site, -, hsite⟩
  · exact tryModule_inProject hroot hname
  · rw [usePathImport_eq] at hsite
    obtain ⟨found, -, hfound⟩ := Option.bind_eq_some_iff.mp hsite
    exact tryModule_inProject hroot hfound

end Imports

end Landing

section Sample

/-- The disk with these files. -/
def diskOf (files : List Place) : Disk :=
  ⟨fun place => files.contains place, fun place => files.filterMap fun file =>
    if file.take place.length = place then file[place.length]? else none⟩

/-- Three modules, the first with a path from the root of the crate and tests of a function
that is called like the third. -/
def parserCrate : Crate where
  disk := diskOf [["p", "src", "lib.rs"], ["p", "src", "lexer.rs"], ["p", "src", "token.rs"],
    ["p", "src", "scan.rs"]]
  dir := ["p", "src"]
  rootFile := "lib.rs"
  itemsOf place :=
    if place = ["p", "src", "lib.rs"] then [.modFile "lexer", .modFile "token", .modFile "scan"]
    else if place = ["p", "src", "lexer.rs"] then
      [.useDeclaration (some (.scoped (some (.scoped (some (.keyword "crate")) (some "token")))
          (some "Kind"))),
        .modInline "tests" [.useDeclaration (some (.scoped (some (.keyword "super"))
          (some "scan")))]]
    else []

theorem mem_of_parserCrate {path : List String} (h : (parserCrate.moduleAt path).isSome = true) :
    path ∈ [[], ["lexer"], ["lexer", "tests"], ["token"], ["scan"]] := by
  have hend : ∀ dir m path, declaredMods m.items = [] →
      (parserCrate.moduleFrom dir m path).isSome = true → path = [] := by
    intro dir m path hnone hfound
    cases path with
    | nil => rfl
    | cons name path =>
      have hname := Crate.head_declared hfound
      rw [hnone] at hname
      cases hname
  cases path with
  | nil => decide
  | cons name path =>
    have hname : name ∈ ["lexer", "token", "scan"] := Crate.head_declared h
    simp only [List.mem_cons, List.not_mem_nil, or_false] at hname
    rcases hname with rfl | rfl | rfl
    · cases path with
      | nil => decide
      | cons name path =>
        have hbelow : (parserCrate.moduleFrom ["p", "src", "lexer"]
            (parserCrate.fileModule ["p", "src", "lexer.rs"]) (name :: path)).isSome = true := h
        obtain rfl : name = "tests" := List.mem_singleton.mp (Crate.head_declared hbelow)
        obtain rfl : path = [] := hend ["p", "src", "lexer", "tests"] ⟨.inline,
          [.useDeclaration (some (.scoped (some (.keyword "super")) (some "scan")))]⟩ _ rfl h
        decide
    · obtain rfl : path = [] := hend ["p", "src", "token"]
        (parserCrate.fileModule ["p", "src", "token.rs"]) _ rfl h
      decide
    · obtain rfl : path = [] := hend ["p", "src", "scan"]
        (parserCrate.fileModule ["p", "src", "scan.rs"]) _ rfl h
      decide

theorem parserCrate_standard : parserCrate.Standard where
  rootFile := by decide
  rootStands := by decide
  identifiers path h := by
    have hall : ∀ path ∈ [[], ["lexer"], ["lexer", "tests"], ["token"], ["scan"]],
        ∀ name ∈ path, name ≠ "mod" ∧ '.' ∉ name.toList := by decide
    exact hall path (mem_of_parserCrate h)
  spelled path parts hne spelled hspelled h := by
    have hmem := mem_of_parserCrate (Crate.moduleAt_of_fileAt h)
    have hname : ∃ name ∈ ["lexer", "token", "scan"], path ++ parts = [name] := by
      simp only [List.mem_cons, List.not_mem_nil, or_false] at hmem
      rcases hmem with heq | heq | heq | heq | heq
      · exact absurd (List.append_eq_nil_iff.mp heq).2 hne
      · exact ⟨"lexer", by decide, heq⟩
      · rw [heq] at h
        cases h
      · exact ⟨"token", by decide, heq⟩
      · exact ⟨"scan", by decide, heq⟩
    obtain ⟨name, hname, heq⟩ := hname
    rcases List.append_eq_singleton_iff.mp heq with ⟨rfl, rfl⟩ | ⟨-, rfl⟩
    · have hall : ∀ name ∈ ["lexer", "token", "scan"], ∀ spelled ∈ spellings [name],
          parserCrate.fileAt [name] = some (["p", "src"] ++ spelled) →
          caseExactOnDisk parserCrate.disk ["p", "src"] spelled = true := by decide
      exact hall name hname spelled hspelled h
    · exact absurd rfl hne

end Sample

end RemyCC.Index
