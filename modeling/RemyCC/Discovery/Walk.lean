import RemyCC.Discovery.Config

/-!
# The walk of the source tree

The walk keeps the directories it has still to read on a stack and prunes an
excluded one with all that is below it. A stored path is held against the same
patterns without the tree.
-/

namespace RemyCC.Discovery

open Text

inductive Language where
  | cCpp
  | python
  | ts
  | rust
  deriving DecidableEq, Repr

namespace Language

def extensions : List (String × Language) :=
  [(".c", cCpp), (".h", cCpp), (".cpp", cCpp), (".hpp", cCpp), (".cc", cCpp), (".cxx", cCpp),
    (".hh", cCpp), (".hxx", cCpp), (".py", python), (".ts", ts), (".tsx", ts), (".rs", rust)]

/-- The language of the longest extension that the name ends with. -/
def resolve (filename : String) : Option Language :=
  (extensions.foldl (fun best (ext, language) =>
    if endsWith filename ext then
      match best with
      | some (prev, kept) =>
        if prev.length ≥ ext.length then some (prev, kept) else some (ext, language)
      | none => some (ext, language)
    else best) (none : Option (String × Language))).map Prod.snd

end Language

/-- A name in a directory. -/
structure Name where
  text : String
  slashless : '/' ∉ text.toList
  notDot : text ≠ "."

/-- What a directory lists: all that is no directory, links included, is a file. -/
inductive Entry where
  | file
  | dir (entries : List (Name × Entry))

def relPath (path : List Name) : String := joinWith "/" (path.map Name.text)

/-- The directories still to read, each with the path to it, and the files found. -/
structure Walk where
  stack : List (List Name × List (Name × Entry))
  discovered : List String

mutual

def Entry.size : Entry → Nat
  | .file => 0
  | .dir entries => 1 + sizeOfAll entries

def sizeOfAll : List (Name × Entry) → Nat
  | [] => 0
  | entry :: entries => entry.2.size + sizeOfAll entries

end

/-- The directories still to read, with all below them. -/
def Walk.size (w : Walk) : Nat := (w.stack.map fun dir => 1 + sizeOfAll dir.2).sum

section Discover

variable (normcase : String → String) (config : ScanConfig)

def visitEntry (dir : List Name) (w : Walk) : Name × Entry → Walk
  | (name, .dir entries) =>
    if config.isExcluded normcase (relPath (dir ++ [name])) true then w
    else { w with stack := (dir ++ [name], entries) :: w.stack }
  | (name, .file) =>
    if config.isExcluded normcase (relPath (dir ++ [name])) false then w
    else if (Language.resolve name.text).isNone then w
    else { w with discovered := w.discovered ++ [relPath (dir ++ [name])] }

def readDir (dir : List Name) (entries : List (Name × Entry)) (w : Walk) : Walk :=
  entries.foldl (visitEntry normcase config dir) w

theorem visitEntry_size (dir : List Name) (w : Walk) (entry : Name × Entry) :
    (visitEntry normcase config dir w entry).size ≤ w.size + entry.2.size := by
  obtain ⟨name, entry⟩ := entry
  cases entry with
  | file =>
    rw [visitEntry]
    split
    · omega
    · split <;> simp [Walk.size]
  | dir entries =>
    rw [visitEntry, Entry.size]
    split
    · omega
    · simp only [Walk.size, List.map_cons, List.sum_cons]
      omega

theorem readDir_size (dir : List Name) (entries : List (Name × Entry)) (w : Walk) :
    (readDir normcase config dir entries w).size ≤ w.size + sizeOfAll entries := by
  unfold readDir
  induction entries generalizing w with
  | nil => exact Nat.le_add_right _ _
  | cons entry entries ih =>
    have hstep := visitEntry_size normcase config dir w entry
    have hrest := ih (visitEntry normcase config dir w entry)
    rw [List.foldl_cons, sizeOfAll]
    omega

def walk (w : Walk) : List String :=
  match hw : w.stack with
  | [] => w.discovered
  | (dir, entries) :: stack => walk (readDir normcase config dir entries { w with stack })
termination_by w.size
decreasing_by
  have hread := readDir_size normcase config dir entries { w with stack }
  have hsize : w.size = 1 + sizeOfAll entries + Walk.size { w with stack } := by
    rw [Walk.size, hw, List.map_cons, List.sum_cons, Walk.size]
  omega

def discover (root : List (Name × Entry)) : List String :=
  walk normcase config ⟨[([], root)], []⟩

end Discover

section Reached

variable (normcase : String → String) (config : ScanConfig)

/-- A file stands at this path below the directory. -/
inductive FileAt : List (Name × Entry) → List Name → Prop
  | here {entries : List (Name × Entry)} {name : Name} (h : (name, .file) ∈ entries) :
      FileAt entries [name]
  | inside {entries sub : List (Name × Entry)} {name : Name} {path : List Name}
      (h : (name, .dir sub) ∈ entries) (hsub : FileAt sub path) : FileAt entries (name :: path)

def languageOf (path : List Name) : Option Language :=
  path.getLast?.bind fun name => Language.resolve name.text

/-- From this directory on, the walk prunes nothing on the way to the path. -/
def ReachesBelow (dir path : List Name) : Prop :=
  (∀ above rest, above ≠ [] → rest ≠ [] → path = above ++ rest →
    config.isExcluded normcase (relPath (dir ++ above)) true = false) ∧
  config.isExcluded normcase (relPath (dir ++ path)) false = false

/-- No directory above the path is excluded, nor the path itself. -/
def Reaches (path : List Name) : Prop := ReachesBelow normcase config [] path

/-- The walk of this directory finds the file. -/
def Offers (dir : List Name) (entries : List (Name × Entry)) (rel : String) : Prop :=
  ∃ path, FileAt entries path ∧ (languageOf path).isSome ∧ ReachesBelow normcase config dir path ∧
    rel = relPath (dir ++ path)

/-- The file is found, or a directory on the stack offers it. -/
def Yields (w : Walk) (rel : String) : Prop :=
  rel ∈ w.discovered ∨ ∃ dir ∈ w.stack, Offers normcase config dir.1 dir.2 rel

variable {normcase config}

theorem FileAt.ne_nil {entries : List (Name × Entry)} {path : List Name}
    (h : FileAt entries path) : path ≠ [] := by
  cases h <;> exact List.cons_ne_nil _ _

theorem reachesBelow_singleton {dir : List Name} {name : Name} :
    ReachesBelow normcase config dir [name] ↔
      config.isExcluded normcase (relPath (dir ++ [name])) false = false := by
  refine and_iff_right fun above rest habove hrest hpath => ?_
  have hlength := congrArg List.length hpath
  have := List.length_pos_iff.mpr habove
  have := List.length_pos_iff.mpr hrest
  simp only [List.length_append, List.length_singleton] at hlength
  omega

theorem reachesBelow_cons {dir path : List Name} {name : Name} (hne : path ≠ []) :
    ReachesBelow normcase config dir (name :: path) ↔
      config.isExcluded normcase (relPath (dir ++ [name])) true = false ∧
        ReachesBelow normcase config (dir ++ [name]) path := by
  have happend (above : List Name) : dir ++ name :: above = dir ++ [name] ++ above := by
    rw [List.append_assoc, List.singleton_append]
  constructor
  · rintro ⟨habove, hpath⟩
    refine ⟨habove [name] path (List.cons_ne_nil _ _) hne rfl, fun above rest _ hrest heq => ?_, ?_⟩
    · rw [← happend]
      exact habove (name :: above) rest (List.cons_ne_nil _ _) hrest (by rw [heq]; rfl)
    · rw [← happend]
      exact hpath
  · rintro ⟨hname, habove, hpath⟩
    refine ⟨fun above rest hne hrest heq => ?_, by rw [happend]; exact hpath⟩
    cases above with
    | nil => exact absurd rfl hne
    | cons first above =>
      obtain ⟨rfl, hpath'⟩ := List.cons_eq_cons.mp heq
      by_cases hlast : above = []
      · rw [hlast]
        exact hname
      · rw [happend]
        exact habove above rest hlast hrest hpath'

theorem languageOf_cons {path : List Name} {name : Name} (hne : path ≠ []) :
    languageOf (name :: path) = languageOf path := by
  unfold languageOf
  rw [List.getLast?_cons_of_ne_nil hne]

theorem offers_nil {dir : List Name} {rel : String} : ¬Offers normcase config dir [] rel := by
  rintro ⟨path, hfile, -⟩
  cases hfile with
  | here h => exact absurd h List.not_mem_nil
  | inside h _ => exact absurd h List.not_mem_nil

theorem fileAt_cons {entry : Name × Entry} {entries : List (Name × Entry)} {path : List Name} :
    FileAt (entry :: entries) path ↔ FileAt [entry] path ∨ FileAt entries path := by
  constructor
  · intro h
    cases h with
    | here h =>
      rcases List.mem_cons.mp h with rfl | h
      · exact .inl (.here List.mem_cons_self)
      · exact .inr (.here h)
    | inside h hsub =>
      rcases List.mem_cons.mp h with rfl | h
      · exact .inl (.inside List.mem_cons_self hsub)
      · exact .inr (.inside h hsub)
  · rintro (h | h)
    · cases h with
      | here h => exact .here (List.mem_cons.mpr (.inl (List.mem_singleton.mp h)))
      | inside h hsub => exact .inside (List.mem_cons.mpr (.inl (List.mem_singleton.mp h))) hsub
    · cases h with
      | here h => exact .here (List.mem_cons_of_mem entry h)
      | inside h hsub => exact .inside (List.mem_cons_of_mem entry h) hsub

theorem offers_cons {dir : List Name} {entry : Name × Entry} {entries : List (Name × Entry)}
    {rel : String} :
    Offers normcase config dir (entry :: entries) rel ↔
      Offers normcase config dir [entry] rel ∨ Offers normcase config dir entries rel := by
  constructor
  · rintro ⟨path, hfile, hoffer⟩
    exact (fileAt_cons.mp hfile).imp (fun h => ⟨path, h, hoffer⟩) (fun h => ⟨path, h, hoffer⟩)
  · rintro (⟨path, hfile, hoffer⟩ | ⟨path, hfile, hoffer⟩)
    · exact ⟨path, fileAt_cons.mpr (.inl hfile), hoffer⟩
    · exact ⟨path, fileAt_cons.mpr (.inr hfile), hoffer⟩

theorem offers_file {dir : List Name} {name : Name} {rel : String} :
    Offers normcase config dir [(name, .file)] rel ↔
      config.isExcluded normcase (relPath (dir ++ [name])) false = false ∧
        (Language.resolve name.text).isSome ∧ rel = relPath (dir ++ [name]) := by
  constructor
  · rintro ⟨path, hfile, hlanguage, hreaches, rfl⟩
    cases hfile with
    | here h =>
      cases List.mem_singleton.mp h
      exact ⟨reachesBelow_singleton.mp hreaches, hlanguage, rfl⟩
    | inside h _ => cases List.mem_singleton.mp h
  · rintro ⟨hexcluded, hlanguage, rfl⟩
    exact ⟨[name], .here List.mem_cons_self, hlanguage, reachesBelow_singleton.mpr hexcluded, rfl⟩

theorem offers_dir {dir : List Name} {name : Name} {entries : List (Name × Entry)} {rel : String} :
    Offers normcase config dir [(name, .dir entries)] rel ↔
      config.isExcluded normcase (relPath (dir ++ [name])) true = false ∧
        Offers normcase config (dir ++ [name]) entries rel := by
  constructor
  · rintro ⟨path, hfile, hlanguage, hreaches, rfl⟩
    cases hfile with
    | here h => cases List.mem_singleton.mp h
    | inside h hsub =>
      cases List.mem_singleton.mp h
      rw [languageOf_cons hsub.ne_nil] at hlanguage
      obtain ⟨hname, hreaches⟩ := (reachesBelow_cons hsub.ne_nil).mp hreaches
      refine ⟨hname, _, hsub, hlanguage, hreaches, ?_⟩
      rw [List.append_assoc, List.singleton_append]
  · rintro ⟨hname, path, hsub, hlanguage, hreaches, rfl⟩
    refine ⟨name :: path, .inside List.mem_cons_self hsub, ?_, ?_, ?_⟩
    · rwa [languageOf_cons hsub.ne_nil]
    · exact (reachesBelow_cons hsub.ne_nil).mpr ⟨hname, hreaches⟩
    · rw [List.append_assoc, List.singleton_append]

theorem visitEntry_yields {dir : List Name} {w : Walk} {entry : Name × Entry} {rel : String} :
    Yields normcase config (visitEntry normcase config dir w entry) rel ↔
      Yields normcase config w rel ∨ Offers normcase config dir [entry] rel := by
  obtain ⟨name, entry⟩ := entry
  cases entry with
  | file =>
    rw [visitEntry, offers_file]
    cases config.isExcluded normcase (relPath (dir ++ [name])) false with
    | true => simp
    | false =>
      cases hlanguage : Language.resolve name.text with
      | none => simp
      | some language => simp [Yields, or_right_comm]
  | dir entries =>
    rw [visitEntry, offers_dir]
    cases config.isExcluded normcase (relPath (dir ++ [name])) true with
    | true => simp
    | false =>
      simp only [Bool.false_eq_true, ite_false, Yields, List.exists_mem_cons_iff, true_and]
      rw [or_assoc, or_comm (a := Offers normcase config (dir ++ [name]) entries rel)]

theorem readDir_yields {dir : List Name} {entries : List (Name × Entry)} {w : Walk}
    {rel : String} :
    Yields normcase config (readDir normcase config dir entries w) rel ↔
      Yields normcase config w rel ∨ Offers normcase config dir entries rel := by
  unfold readDir
  induction entries generalizing w with
  | nil => exact (or_iff_left offers_nil).symm
  | cons entry entries ih => rw [List.foldl_cons, ih, visitEntry_yields, or_assoc, ← offers_cons]

theorem mem_walk {w : Walk} {rel : String} :
    rel ∈ walk normcase config w ↔ Yields normcase config w rel := by
  induction w using walk.induct normcase config with
  | case1 w hw =>
    rw [walk.eq_def, Yields, hw]
    simp
  | case2 w dir entries stack hw ih =>
    have hwalk : walk normcase config w =
        walk normcase config (readDir normcase config dir entries { w with stack }) := by
      rw [walk.eq_def, hw]
    rw [hwalk, ih, readDir_yields, Yields, Yields, hw, List.exists_mem_cons_iff, or_assoc,
      or_comm (a := Offers normcase config dir entries rel)]

theorem mem_discover {root : List (Name × Entry)} {rel : String} :
    rel ∈ discover normcase config root ↔ Offers normcase config [] root rel := by
  rw [discover, mem_walk, Yields]
  simp

end Reached

section Agreement

variable {normcase : String → String} {config : ScanConfig} {path : List Name}

theorem texts_slashless : ∀ part ∈ path.map Name.text, '/' ∉ part.toList := by
  intro part hpart
  obtain ⟨name, -, rfl⟩ := List.mem_map.mp hpart
  exact name.slashless

theorem texts_notDot : ∀ part ∈ path.map Name.text, part ≠ "." := by
  intro part hpart
  obtain ⟨name, -, rfl⟩ := List.mem_map.mp hpart
  exact name.notDot

theorem Name.text_injective : Function.Injective Name.text := by
  rintro ⟨a, _, _⟩ ⟨b, _, _⟩ (rfl : a = b)
  rfl

theorem relPath_inj {other : List Name} (hpath : path ≠ []) (hother : other ≠ [])
    (h : relPath path = relPath other) : path = other := by
  refine List.map_injective_iff.mpr Name.text_injective ?_
  have hsplit {p : List Name} (hp : p ≠ []) : split '/' (relPath p) = p.map Name.text :=
    split_joinWith '/' (by simpa using hp) texts_slashless
  rw [← hsplit hpath, ← hsplit hother, h]

/-- The walk finds a file of some language exactly when it reaches it. -/
theorem mem_discover_iff {root : List (Name × Entry)} (hfile : FileAt root path)
    (hlanguage : (languageOf path).isSome) :
    relPath path ∈ discover normcase config root ↔ Reaches normcase config path := by
  rw [mem_discover]
  constructor
  · rintro ⟨other, hother, -, hreaches, heq⟩
    rw [relPath_inj hfile.ne_nil hother.ne_nil heq]
    exact hreaches
  · intro hreaches
    exact ⟨path, hfile, hlanguage, hreaches, rfl⟩

theorem isExcluded_path_iff {isDir : Bool} (hne : path ≠ []) :
    config.isExcluded normcase (relPath path) isDir ↔
      ∃ pattern ∈ config.exclusions, (mustBeDir pattern → isDir) ∧
        hits normcase pattern (path.map Name.text) :=
  isExcluded_iff (by simpa using hne) texts_slashless texts_notDot

theorem mem_ancestors_texts {a : List String} :
    a ∈ ancestors (path.map Name.text) ↔
      ∃ above rest, above ≠ [] ∧ rest ≠ [] ∧ path = above ++ rest ∧ a = above.map Name.text := by
  rw [mem_ancestors]
  constructor
  · rintro ⟨rest, ha, hrest, heq⟩
    obtain ⟨above, later, hpath, rfl, rfl⟩ := List.map_eq_append_iff.mp heq
    exact ⟨above, later, by simpa using ha, by simpa using hrest, hpath, rfl⟩
  · rintro ⟨above, rest, habove, hrest, rfl, rfl⟩
    exact ⟨rest.map Name.text, by simpa using habove, by simpa using hrest, List.map_append⟩

/-- The walk prunes by every pattern, of directories or not. -/
theorem reaches_iff (hne : path ≠ []) :
    Reaches normcase config path ↔
      ¬(RuledOut normcase config (path.map Name.text) ∨
        BareAncestor normcase config (path.map Name.text)) := by
  have habove {above rest : List Name} (hne : above ≠ []) (hrest : rest ≠ [])
      (hpath : path = above ++ rest) {pattern : String}
      (hhits : hits normcase pattern (above.map Name.text)) :
      ∃ a ∈ ancestors (path.map Name.text), hits normcase pattern a :=
    ⟨_, mem_ancestors_texts.mpr ⟨above, rest, hne, hrest, hpath, rfl⟩, hhits⟩
  constructor
  · rintro ⟨hdirs, hpath⟩ hpruned
    have hdir {pattern : String} (hmem : pattern ∈ config.exclusions)
        (h : ∃ a ∈ ancestors (path.map Name.text), hits normcase pattern a) : False := by
      obtain ⟨a, ha, hhits⟩ := h
      obtain ⟨above, rest, hne, hrest, heq, rfl⟩ := mem_ancestors_texts.mp ha
      refine Bool.eq_false_iff.mp (hdirs above rest hne hrest heq) ?_
      exact (isExcluded_path_iff hne).mpr ⟨pattern, hmem, fun _ => rfl, hhits⟩
    rcases hpruned with ⟨pattern, hmem, h⟩ | ⟨pattern, hmem, -, h⟩
    · by_cases hmust : mustBeDir pattern
      · rw [if_pos hmust] at h
        exact hdir hmem h
      · rw [if_neg hmust] at h
        refine Bool.eq_false_iff.mp hpath ?_
        exact (isExcluded_path_iff hne).mpr ⟨pattern, hmem, fun hd => absurd hd hmust, h⟩
    · exact hdir hmem h
  · intro hkept
    refine ⟨fun above rest hne hrest hpath => ?_, ?_⟩ <;> refine Bool.eq_false_iff.mpr fun h => ?_
    · obtain ⟨pattern, hmem, -, hhits⟩ := (isExcluded_path_iff hne).mp h
      by_cases hmust : mustBeDir pattern
      · exact hkept (.inl ⟨pattern, hmem, by rw [if_pos hmust]; exact habove hne hrest hpath hhits⟩)
      · exact hkept (.inr ⟨pattern, hmem, Bool.eq_false_iff.mpr hmust, habove hne hrest hpath hhits⟩)
    · obtain ⟨pattern, hmem, hmust, hhits⟩ := (isExcluded_path_iff hne).mp h
      exact hkept (.inl ⟨pattern, hmem, by rw [if_neg fun hd => nomatch hmust hd]; exact hhits⟩)

variable (normcase config path) in
/-- Every pattern that prunes the path on the walk has one that rules it out as
it is stored, with backslashes for separators, and the other way round. -/
structure Agreeable : Prop where
  bare : BareAncestor normcase config (path.map Name.text) →
    RuledOut normcase config (slashed (path.map Name.text))
  kept : RuledOut normcase config (path.map Name.text) →
    RuledOut normcase config (slashed (path.map Name.text))
  read : RuledOut normcase config (slashed (path.map Name.text)) →
    RuledOut normcase config (path.map Name.text) ∨
      BareAncestor normcase config (path.map Name.text)

/-- Without backslashes only a pattern for no directories can prune one more. -/
theorem agreeable_iff (hne : path ≠ []) (hback : ∀ name ∈ path, '\\' ∉ name.text.toList) :
    Agreeable normcase config path ↔
      (BareAncestor normcase config (path.map Name.text) →
        RuledOut normcase config (path.map Name.text)) := by
  have hkept : slashed (path.map Name.text) = path.map Name.text := by
    refine slashed_of_backslashless (by simpa using hne) texts_slashless fun part hpart => ?_
    obtain ⟨name, hname, rfl⟩ := List.mem_map.mp hpart
    exact hback name hname
  constructor
  · intro h
    rw [← hkept]
    simpa only [hkept] using h.bare
  · intro h
    exact ⟨by rwa [hkept], by rw [hkept]; exact id, by rw [hkept]; exact .inl⟩

theorem reaches_agrees_iff (hne : path ≠ []) :
    (Reaches normcase config path ↔ config.isPathExcluded normcase (relPath path) = false) ↔
      Agreeable normcase config path := by
  rw [reaches_iff hne, relPath, ← Bool.not_eq_true, isPathExcluded_iff, not_iff_not]
  constructor
  · intro h
    exact ⟨fun hbare => h.mp (.inr hbare), fun hruled => h.mp (.inl hruled), h.mpr⟩
  · intro h
    exact ⟨fun hpruned => hpruned.elim h.kept h.bare, h.read⟩

variable (normcase config) in
/-- The stored paths that the sweep of a full scan keeps. -/
def sweepUndiscovered (root : List (Name × Entry)) (dbPaths : List String) : List String :=
  dbPaths.filter fun rel => (discover normcase config root).contains rel

variable (normcase config) in
/-- The stored paths that the sweep of an incremental scan keeps. -/
def sweepExcluded (dbPaths : List String) : List String :=
  dbPaths.filter fun rel => !config.isPathExcluded normcase rel

theorem filter_eq_filter_iff {l : List String} {p q : String → Bool} :
    l.filter p = l.filter q ↔ ∀ a ∈ l, p a = q a := by
  constructor
  · intro h a ha
    have hmem : a ∈ l.filter p ↔ a ∈ l.filter q := by rw [h]
    simpa only [List.mem_filter, ha, true_and, ← Bool.eq_iff_iff] using hmem
  · exact List.filter_congr

theorem sweeps_agree_iff {root : List (Name × Entry)} {paths : List (List Name)}
    (hpaths : ∀ path ∈ paths, FileAt root path ∧ (languageOf path).isSome) :
    sweepUndiscovered normcase config root (paths.map relPath) =
        sweepExcluded normcase config (paths.map relPath) ↔
      ∀ path ∈ paths, Agreeable normcase config path := by
  unfold sweepUndiscovered sweepExcluded
  rw [filter_eq_filter_iff, List.forall_mem_map]
  refine forall₂_congr fun path hpath => ?_
  obtain ⟨hfile, hlanguage⟩ := hpaths path hpath
  rw [← reaches_agrees_iff hfile.ne_nil, ← mem_discover_iff hfile hlanguage, Bool.eq_iff_iff,
    List.contains_iff_mem, Bool.not_eq_true']

/-- The walk and the path test agree on a path, and the two sweeps on a set of
stored ones, exactly where each pattern that prunes has one that rules out. -/
theorem discover_agrees_isPathExcluded (normcase : String → String) (config : ScanConfig)
    (root : List (Name × Entry)) :
    (∀ path, FileAt root path → (languageOf path).isSome →
      (relPath path ∈ discover normcase config root ↔ Reaches normcase config path)) ∧
    (∀ path, path ≠ [] →
      ((Reaches normcase config path ↔ config.isPathExcluded normcase (relPath path) = false) ↔
        Agreeable normcase config path)) ∧
    (∀ paths : List (List Name), (∀ path ∈ paths, FileAt root path ∧ (languageOf path).isSome) →
      (sweepUndiscovered normcase config root (paths.map relPath) =
          sweepExcluded normcase config (paths.map relPath) ↔
        ∀ path ∈ paths, Agreeable normcase config path)) :=
  ⟨fun _ => mem_discover_iff, fun _ => reaches_agrees_iff, fun _ => sweeps_agree_iff⟩

section Pruned

theorem nodeModules_slashless : '/' ∉ "node_modules".toList := by decide

theorem nodeModules_notDot : "node_modules" ≠ "." := by decide

theorem aC_slashless : '/' ∉ "a.c".toList := by decide

theorem aC_notDot : "a.c" ≠ "." := by decide

def nodeModules : Name := ⟨"node_modules", nodeModules_slashless, nodeModules_notDot⟩

def aC : Name := ⟨"a.c", aC_slashless, aC_notDot⟩

def onlyNodeModules : ScanConfig := ⟨["node_modules"]⟩

/-- A bare pattern prunes the directory it names and keeps the files stored below it. -/
theorem bare_name_prunes_only_walk :
    ¬(Reaches id onlyNodeModules [nodeModules, aC] ↔
      onlyNodeModules.isPathExcluded id (relPath [nodeModules, aC]) = false) := by
  intro h
  have hstored : onlyNodeModules.isPathExcluded id (relPath [nodeModules, aC]) = false := by
    decide +kernel
  have hwalk : onlyNodeModules.isExcluded id (relPath [nodeModules]) true = true := by
    decide +kernel
  have hreaches := (h.mpr hstored).1 [nodeModules] [aC] (List.cons_ne_nil _ _)
    (List.cons_ne_nil _ _) rfl
  rw [List.nil_append, hwalk] at hreaches
  cases hreaches

/-- Both conditions of the agreement at once, on a tree with a pruned directory. -/
theorem discover_agrees_isPathExcluded_pruned :
    FileAt [(nodeModules, .dir [(aC, .file)])] [nodeModules, aC] ∧
      (relPath [nodeModules, aC] ∈
          discover id onlyNodeModules [(nodeModules, .dir [(aC, .file)])] ↔
        Reaches id onlyNodeModules [nodeModules, aC]) ∧
      ((Reaches id onlyNodeModules [nodeModules, aC] ↔
          onlyNodeModules.isPathExcluded id (relPath [nodeModules, aC]) = false) ↔
        Agreeable id onlyNodeModules [nodeModules, aC]) ∧
      (sweepUndiscovered id onlyNodeModules [(nodeModules, .dir [(aC, .file)])]
          ([[nodeModules, aC]].map relPath) =
        sweepExcluded id onlyNodeModules ([[nodeModules, aC]].map relPath) ↔
        ∀ path ∈ [[nodeModules, aC]], Agreeable id onlyNodeModules path) := by
  have hfile : FileAt [(nodeModules, .dir [(aC, .file)])] [nodeModules, aC] :=
    .inside List.mem_cons_self (.here List.mem_cons_self)
  have hlanguage : (languageOf [nodeModules, aC]).isSome := by decide +kernel
  have hagrees := discover_agrees_isPathExcluded id onlyNodeModules
    [(nodeModules, .dir [(aC, .file)])]
  refine ⟨hfile, hagrees.1 _ hfile hlanguage, hagrees.2.1 _ (List.cons_ne_nil _ _),
    hagrees.2.2 _ fun path hpath => ?_⟩
  rw [List.mem_singleton.mp hpath]
  exact ⟨hfile, hlanguage⟩

end Pruned

end Agreement

end RemyCC.Discovery
