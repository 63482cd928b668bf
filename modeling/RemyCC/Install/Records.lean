import RemyCC.Install.Uninstall
import RemyCC.Relational.Outcome

/-!
# Which files the records of a manifest stand for

A record is checked by the components of its path and kept by the spelling, so
two records that differ in their spelling only are both accepted.
-/

namespace RemyCC.Install

open Files Json Json.Value Text Relational

/-- Joined to a root, the path stays strictly inside of it. -/
structure Inside (path : String) : Prop where
  relative : startsWith path "/" = false ∧ startsWithDrive path = false
  proper : components path ≠ []
  normal : ∀ part ∈ components path, part ≠ "" ∧ part ≠ "." ∧ part ≠ ".." ∧ '/' ∉ part.toList

/-- A path without empty components or dots. -/
def Canonical (path : String) : Prop := joinWith "/" (components path) = path

instance : DecidablePred Canonical := fun _ => inferInstanceAs (Decidable (_ = _))

/-- The file that a record stands for, within its root. -/
def FileRecord.file (r : FileRecord) : String × FilePath := (r.root, components r.path)

/-- The root and the path that a document gives of a file, as they are spelled. -/
def spelledKey (raw : Value) : Option (String × String) := do
  let record ← raw.asObject
  let root ← (field record "root").bind asStr
  let path ← (field record "path").bind asStr
  return (root, path)

def spelledKeys (value : Value) : List (String × String) :=
  (((value.get "files").bind asArray).getD []).filterMap spelledKey

/-- A path that is not spelled canonically stands alone for its file. -/
def SpelledApart (keys : List (String × String)) : Prop :=
  ∀ k ∈ keys, ¬ Canonical k.2 → ∀ k' ∈ keys, k'.1 = k.1 → components k'.2 = components k.2 → k' = k

/-- What the records of a manifest are to be, and what uninstall and the deletion of obsolete
files are to make of them. -/
structure Identified (m : Manifest) : Prop where
  inside : ∀ r ∈ m.files, Inside r.path
  distinct : (m.files.map FileRecord.file).Nodup
  obsolete : ∀ {β : Type} (platform : Platform β) (params : InstallParams) (luck : Luck β)
    (files : Tree FilePath (Content β)) (planned : List (PlannedFile β)) (obsolete : List FilePath),
    findObsolete platform params luck files (unplanned planned (oldRecords (some m))) =
        .ok obsolete →
      ∃ acted, acted ⊆ m.files ∧ (acted.map FileRecord.file).Nodup ∧
        obsolete = acted.map fun r => place params.roots r.root r.path
  removed : ∀ {β : Type} (roots : Roots) (luck : Luck β) (h : Home (Content β)),
    (removeRecords roots luck m.files h).2.2 ⊆ m.files ∧
      ((removeRecords roots luck m.files h).2.2.map FileRecord.file).Nodup

section Paths

theorem mem_components {path part : String} :
    part ∈ components path ↔ part ∈ split '/' path ∧ part ≠ "" ∧ part ≠ "." := by
  simp [components]

theorem slash_of_mem_splitChar {part : List Char} {s : List Char} (h : part ∈ splitChar '/' s) :
    '/' ∉ part := by
  induction s generalizing part with
  | nil =>
    rw [List.mem_singleton.mp h]
    exact List.not_mem_nil
  | cons c s ih =>
    rw [splitChar] at h
    split at h
    · rcases List.mem_cons.mp h with rfl | h
      · exact List.not_mem_nil
      · exact ih h
    · next hc =>
      cases hsplit : splitChar '/' s with
      | nil => exact absurd hsplit (splitChar_ne_nil _ _)
      | cons word words =>
        rw [hsplit] at h ih
        rcases List.mem_cons.mp h with rfl | h
        · intro hmem
          rcases List.mem_cons.mp hmem with heq | hmem
          · exact hc heq.symm
          · exact ih List.mem_cons_self hmem
        · exact ih (List.mem_cons_of_mem _ h)

theorem slash_of_mem_split {path part : String} (h : part ∈ split '/' path) :
    '/' ∉ part.toList := by
  obtain ⟨chars, hchars, rfl⟩ := List.mem_map.mp h
  rw [String.toList_ofList]
  exact slash_of_mem_splitChar hchars

/-- The first part of a path that does not start with a slash is not empty. -/
theorem exists_first {path : String} (hne : path ≠ "") (hslash : startsWith path "/" = false) :
    ∃ first rest, split '/' path = first :: rest ∧ first ≠ "" := by
  have hchars : path.toList ≠ [] := fun h => hne (String.toList_inj.mp h)
  obtain ⟨c, cs, hpath⟩ := List.exists_cons_of_ne_nil hchars
  have hc : c ≠ '/' := by
    rintro rfl
    rw [startsWith, hpath] at hslash
    have hslashed : "/".toList = ['/'] := by decide
    rw [hslashed] at hslash
    simp at hslash
  rw [split, hpath, splitChar, if_neg hc]
  cases hsplit : splitChar '/' cs with
  | nil => exact absurd hsplit (splitChar_ne_nil _ _)
  | cons word words =>
    refine ⟨_, _, rfl, fun h => ?_⟩
    have hempty := congrArg String.toList h
    rw [String.toList_ofList] at hempty
    cases hempty

theorem inside_of_normalize {path normalized : String}
    (h : normalizeRelativePath path = .ok normalized) : normalized = path ∧ Inside path := by
  unfold normalizeRelativePath at h
  simp only at h
  split at h
  · cases h
  · next hplain =>
    split at h
    · cases h
    · next hsafe =>
      have hempty : path ≠ "" := fun heq => hplain (.inl heq)
      obtain ⟨hslash, hrest⟩ := not_or.mp hsafe
      obtain ⟨hdrive, hnormal⟩ := not_or.mp hrest
      have hslash : startsWith path "/" = false := Bool.eq_false_iff.mpr hslash
      have hnormal : (split '/' path).head? ≠ some "." ∧ ".." ∉ split '/' path := by
        simpa [normalComponents] using hnormal
      obtain ⟨first, rest, hsplit, hfirst⟩ := exists_first hempty hslash
      refine ⟨(Except.ok.inj h).symm, ⟨hslash, Bool.eq_false_iff.mpr hdrive⟩, ?_, fun part hpart => ?_⟩
      · have hdot : first ≠ "." := by
          rw [hsplit] at hnormal
          exact fun heq => hnormal.1 (heq ▸ rfl)
        have hmem : first ∈ components path := by
          rw [mem_components, hsplit]
          exact ⟨List.mem_cons_self, hfirst, hdot⟩
        exact List.ne_nil_of_mem hmem
      · obtain ⟨hsplit, hne, hdot⟩ := mem_components.mp hpart
        exact ⟨hne, hdot, fun heq => hnormal.2 (heq ▸ hsplit), slash_of_mem_split hsplit⟩

end Paths

section Accepted

variable {value : Value} {m : Manifest}

theorem ok_of_orMetadata {α : Type} {message : String} {x : Option α} {a : α}
    (h : SettingsClaim.orMetadata message x = .ok a) : x = some a := by
  cases x with
  | none => cases h
  | some b => rw [Except.ok.inj h]

theorem recordFromValue_ok {raw : Value} {r : FileRecord} (h : recordFromValue raw = .ok r) :
    spelledKey raw = some r.key ∧ Inside r.path := by
  unfold recordFromValue at h
  obtain ⟨record, hrecord, h⟩ := exists_of_bind_ok h
  obtain ⟨root, hroot, h⟩ := exists_of_bind_ok h
  obtain ⟨path, hpath, h⟩ := exists_of_bind_ok h
  obtain ⟨digest, -, h⟩ := exists_of_bind_ok h
  obtain ⟨holder, -, h⟩ := exists_of_bind_ok h
  obtain ⟨role, -, h⟩ := exists_of_bind_ok h
  obtain ⟨-, h⟩ := of_guard_ok h
  obtain ⟨-, h⟩ := of_guard_ok h
  obtain ⟨normalized, hnormalized, h⟩ := exists_of_bind_ok h
  obtain ⟨-, hend⟩ := of_guard_ok h
  obtain ⟨rfl, hinside⟩ := inside_of_normalize hnormalized
  rw [← Except.ok.inj hend]
  have hobject : raw.asObject = some record :=
    (Option.filter_eq_some_iff.mp (ok_of_orMetadata hrecord)).1
  have hroot := ok_of_orMetadata hroot
  have hpath := ok_of_orMetadata hpath
  refine ⟨?_, hinside⟩
  simp only [spelledKey, hobject, hroot, hpath, Option.bind_eq_bind, Option.bind_some, Option.pure_def]
  rfl

theorem recordsFromValues_ok {raws : List Value} {records files : List FileRecord}
    (h : recordsFromValues records raws = .ok files)
    (hrecords : (records.map FileRecord.key).Nodup ∧ ∀ r ∈ records, Inside r.path) :
    files.map FileRecord.key = records.map FileRecord.key ++ raws.filterMap spelledKey ∧
      (files.map FileRecord.key).Nodup ∧ ∀ r ∈ files, Inside r.path := by
  induction raws generalizing records with
  | nil =>
    rw [← Except.ok.inj h]
    exact ⟨(List.append_nil _).symm, hrecords⟩
  | cons raw raws ih =>
    unfold recordsFromValues at h
    obtain ⟨record, hrecord, h⟩ := exists_of_bind_ok h
    obtain ⟨hnew, h⟩ := of_guard_ok h
    obtain ⟨hkey, hinside⟩ := recordFromValue_ok hrecord
    have hmore : ((records ++ [record]).map FileRecord.key).Nodup ∧
        ∀ r ∈ records ++ [record], Inside r.path := by
      refine ⟨?_, fun r hr => ?_⟩
      · rw [List.map_append, List.map_singleton]
        refine List.nodup_append.mpr ⟨hrecords.1, List.nodup_singleton _, fun k hk k' hk' heq => ?_⟩
        rw [heq, List.mem_singleton.mp hk'] at hk
        exact hnew hk
      · rcases List.mem_append.mp hr with hr | hr
        · exact hrecords.2 r hr
        · rw [List.mem_singleton.mp hr]
          exact hinside
    obtain ⟨hkeys, hrest⟩ := ih h hmore
    refine ⟨?_, hrest⟩
    rw [hkeys, List.filterMap_cons, hkey, List.map_append, List.map_singleton, List.append_assoc,
      List.singleton_append]

theorem sharedFields_ok {object : List (String × Value)} {suiteVersion installedAt : String}
    {files : List FileRecord} {claim : SettingsClaim}
    (h : sharedFields object = .ok (suiteVersion, installedAt, files, claim)) :
    files.map FileRecord.key =
        (((field object "files").bind asArray).getD []).filterMap spelledKey ∧
      (files.map FileRecord.key).Nodup ∧ ∀ r ∈ files, Inside r.path := by
  unfold sharedFields at h
  obtain ⟨_, -, h⟩ := exists_of_bind_ok h
  obtain ⟨_, -, h⟩ := exists_of_bind_ok h
  obtain ⟨raws, hraws, h⟩ := exists_of_bind_ok h
  obtain ⟨files', hfiles, h⟩ := exists_of_bind_ok h
  obtain ⟨_, -, h⟩ := exists_of_bind_ok h
  obtain ⟨-, h⟩ := Prod.mk.inj (Except.ok.inj h)
  obtain ⟨-, h⟩ := Prod.mk.inj h
  obtain ⟨rfl, -⟩ := Prod.mk.inj h
  rw [ok_of_orMetadata hraws]
  obtain ⟨hkeys, hrest⟩ := recordsFromValues_ok hfiles
    ⟨List.nodup_nil, fun r hr => absurd hr List.not_mem_nil⟩
  exact ⟨hkeys, hrest⟩

theorem get_of_expectKeys {expected : List String} {object : List (String × Value)}
    (h : expectKeys value expected = .ok object) (key : String) :
    value.get key = field object key := by
  unfold expectKeys at h
  split at h
  · next hobject =>
    split at h
    · rw [Value.get, hobject, Option.bind_some, Except.ok.inj h]
    · cases h
  · cases h

/-- What a document that is accepted has been checked for. -/
theorem records_of_accepted (h : validateV4 value = .ok m ∨ parseV3 value = .ok m) :
    m.files.map FileRecord.key = spelledKeys value ∧ (m.files.map FileRecord.key).Nodup ∧
      ∀ r ∈ m.files, Inside r.path := by
  unfold spelledKeys
  rcases h with h | h
  · unfold validateV4 at h
    obtain ⟨object, hobject, h⟩ := exists_of_bind_ok h
    obtain ⟨-, h⟩ := of_guard_ok h
    obtain ⟨_, -, h⟩ := exists_of_bind_ok h
    obtain ⟨⟨suiteVersion, installedAt, files, claim⟩, hshared, h⟩ := exists_of_bind_ok h
    rw [← Except.ok.inj h, get_of_expectKeys hobject]
    exact sharedFields_ok hshared
  · unfold parseV3 at h
    obtain ⟨object, hobject, h⟩ := exists_of_bind_ok h
    obtain ⟨-, h⟩ := of_guard_ok h
    obtain ⟨-, h⟩ := of_guard_ok h
    obtain ⟨⟨suiteVersion, installedAt, files, claim⟩, hshared, h⟩ := exists_of_bind_ok h
    rw [← Except.ok.inj h, get_of_expectKeys hobject]
    exact sharedFields_ok hshared

end Accepted

section Passes

variable {β : Type} {m : Manifest}

/-- The obsolete files are those of some of the records, in their order. -/
theorem findObsolete_sublist {platform : Platform β} {params : InstallParams} {luck : Luck β}
    {files : Tree FilePath (Content β)} {records : List FileRecord} {obsolete : List FilePath}
    (h : findObsolete platform params luck files records = .ok obsolete) :
    ∃ acted, List.Sublist acted records ∧
      obsolete = acted.map fun r => place params.roots r.root r.path := by
  induction records generalizing obsolete with
  | nil =>
    rw [← Except.ok.inj h]
    exact ⟨[], .refl _, rfl⟩
  | cons r records ih =>
    obtain ⟨disk, -, h⟩ := exists_of_bind_ok h
    cases disk with
    | none =>
      obtain ⟨acted, hacted, hobsolete⟩ := ih h
      exact ⟨acted, hacted.cons r, hobsolete⟩
    | some digest =>
      simp only at h
      split at h
      · obtain ⟨rest, hrest, h⟩ := exists_of_bind_ok h
        obtain ⟨acted, hacted, rfl⟩ := ih hrest
        exact ⟨r :: acted, hacted.cons₂ r, (Except.ok.inj h).symm⟩
      · cases h

theorem removeRecords_sublist (roots : Roots) (luck : Luck β) (records : List FileRecord)
    (h : Home (Content β)) : List.Sublist (removeRecords roots luck records h).2.2 records := by
  induction records generalizing h with
  | nil => exact .refl _
  | cons r records ih =>
    rw [removeRecords]
    simp only
    split
    · exact (ih h).cons r
    · exact (ih _).cons₂ r

theorem nodup_files_sublist {acted records : List FileRecord} (h : List.Sublist acted records)
    (hrecords : (records.map FileRecord.file).Nodup) : (acted.map FileRecord.file).Nodup :=
  hrecords.sublist (h.map _)

theorem identified_of_distinct (hinside : ∀ r ∈ m.files, Inside r.path)
    (hdistinct : (m.files.map FileRecord.file).Nodup) : Identified m where
  inside := hinside
  distinct := hdistinct
  obsolete := fun platform params luck files planned obsolete hobsolete => by
    obtain ⟨acted, hacted, rfl⟩ := findObsolete_sublist hobsolete
    have hold : List.Perm (oldRecords (some m)) m.files := orderBy_perm _ _
    have hsub : List.Sublist acted (oldRecords (some m)) := hacted.trans List.filter_sublist
    exact ⟨acted, fun r hr => hold.mem_iff.mp (hsub.subset hr),
      nodup_files_sublist hsub ((hold.map _).nodup_iff.mpr hdistinct), rfl⟩
  removed := fun roots luck h =>
    ⟨(removeRecords_sublist roots luck m.files h).subset,
      nodup_files_sublist (removeRecords_sublist roots luck m.files h) hdistinct⟩

end Passes

/-- The records of an accepted document stand for different files if none of them is respelled. -/
theorem identified_iff {value : Value} {m : Manifest}
    (h : validateV4 value = .ok m ∨ parseV3 value = .ok m) :
    Identified m ↔ SpelledApart (spelledKeys value) := by
  obtain ⟨hkeys, hnodup, hinside⟩ := records_of_accepted h
  have hfiles : m.files.map FileRecord.file =
      (spelledKeys value).map fun k => (k.1, components k.2) := by
    rw [← hkeys, List.map_map]
    rfl
  rw [hkeys] at hnodup
  constructor
  · intro hidentified k hk _ k' hk' hroot hparts
    have hdistinct := hidentified.distinct
    rw [hfiles] at hdistinct
    exact List.inj_on_of_nodup_map hdistinct hk' hk (Prod.ext hroot hparts)
  · intro happart
    refine identified_of_distinct hinside ?_
    rw [hfiles]
    refine hnodup.map_on fun k hk k' hk' heq => ?_
    obtain ⟨hroot, hparts⟩ := Prod.mk.inj heq
    by_cases hcanonical : Canonical k.2
    · by_cases hcanonical' : Canonical k'.2
      · -- Two canonical spellings of the same components are the same.
        have hpath : k.2 = k'.2 := by
          rw [← hcanonical, ← hcanonical', hparts]
        exact Prod.ext hroot hpath
      · exact happart k' hk' hcanonical' k hk hroot hparts
    · exact (happart k hk hcanonical k' hk' hroot.symm hparts.symm).symm

section Respelled

def respelledDigest : String := "0000000000000000000000000000000000000000000000000000000000000000"

def fileValue (path : String) : Value :=
  .obj [("root", .str rootRemy), ("path", .str path), ("sha256", .str respelledDigest),
    ("owner", .str owner), ("role", .str "daemon_binary")]

def manifestValue (paths : List String) : Value :=
  .obj [("schema_version", .int 4), ("suite_version", .str "2.0.0"), ("installed_at", .str "now"),
    ("artifact_sha256", .null), ("files", .arr (paths.map fileValue)),
    ("settings_claim", .obj [("hooks", .arr []), ("permissions", .arr [])])]

def manifestOf (paths : List String) : Manifest :=
  ⟨"2.0.0", "now", none, paths.map fun path => ⟨rootRemy, path, respelledDigest, "daemon_binary"⟩,
    ⟨[], []⟩⟩

theorem respelled_accepted :
    validateV4 (manifestValue ["bin/remy-cc", "bin//remy-cc"]) =
      .ok (manifestOf ["bin/remy-cc", "bin//remy-cc"]) := by decide +kernel

/-- Both spellings of one file are accepted. -/
theorem respelled_same_file : validateV4 (manifestValue ["bin/remy-cc", "bin//remy-cc"]) =
      .ok (manifestOf ["bin/remy-cc", "bin//remy-cc"]) ∧
    ¬ Identified (manifestOf ["bin/remy-cc", "bin//remy-cc"]) := by
  refine ⟨respelled_accepted, fun h => ?_⟩
  have hdistinct := h.distinct
  revert hdistinct
  decide +kernel

theorem identified_iff_single : Identified (manifestOf ["bin/remy-cc"]) ↔
    SpelledApart (spelledKeys (manifestValue ["bin/remy-cc"])) :=
  identified_iff (.inl (by decide +kernel))

end Respelled

end RemyCC.Install
