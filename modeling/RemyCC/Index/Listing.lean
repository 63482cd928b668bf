import RemyCC.Index.Frames
import RemyCC.Index.Tracking
import RemyCC.Index.Project

/-!
# The files that scans keep

Postprocessing keeps the list of files, and a write or a deletion changes it for
its own path only. Whatever a scan finds and can parse is therefore in the index
after it, unless the scan deletes it.
-/

namespace RemyCC.Index

open Relational Text Discovery

section Passes

variable {c : PostprocessConfig} {d : Database}

theorem hasFile_of_files {d d' : Database} (h : d'.files = d.files) (path : String) :
    d'.hasFile path = d.hasFile path := by
  unfold Database.hasFile Database.file?
  rw [h]

theorem resynthesize_hasFile (c : PostprocessConfig) (d : Database) (path : String) :
    (resynthesize c d).hasFile path = d.hasFile path :=
  hasFile_of_files (resynthesize_same c d).files path

theorem run_hasFile (c : PostprocessConfig) (d : Database) (path : String) :
    (run c d).hasFile path = d.hasFile path := by
  rw [hasFile_of_fileKey (run_views c d).files, resynthesize_hasFile]
  exact hasFile_of_files (resolveFull_same d).files path

theorem runIncremental_hasFile (c : PostprocessConfig) (delta : ScanDelta) (d : Database)
    (path : String) : (runIncremental c delta d).hasFile path = d.hasFile path := by
  rw [hasFile_of_fileKey (runIncremental_views c delta d).files, resynthesize_hasFile]
  exact hasFile_of_files (resolveTargets_same delta d).files path

end Passes

section Operations

variable {h : Hashes} {ops : List FileOp} {d : Database} {path : String}

theorem hasFile_of_fileUnchanged {f : FileFacts} (hf : fileUnchanged f d = true) :
    d.hasFile f.relPath = true := by
  unfold fileUnchanged at hf
  unfold Database.hasFile
  split at hf
  · rename_i r hr
    rw [hr]
    rfl
  · cases hf

theorem writeFileFacts_hasFile (h : Hashes) (f : FileFacts) (d : Database) (path : String) :
    (writeFileFacts h f d).1.hasFile path = (d.hasFile path || path == f.relPath) := by
  unfold writeFileFacts
  by_cases hpath : path = f.relPath
  · rw [hpath, beq_self_eq_true, Bool.or_true]
    split
    · rename_i hunchanged
      exact hasFile_of_fileUnchanged hunchanged
    · exact hasFile_upsert f d
  · rw [beq_eq_false_iff_ne.mpr hpath, Bool.or_false]
    split
    · rfl
    · exact (replaceFacts_replaces h f d).hasFile_eq hpath

theorem applyOps_cons (h : Hashes) (op : FileOp) (ops : List FileOp) (s : Database × ScanDelta) :
    (op :: ops).foldl (applyOp h) s = ops.foldl (applyOp h) (applyOp h s op) := rfl

/-- A path that no operation deletes stays, and a written one comes. -/
theorem foldl_applyOp_hasFile (hdelete : .delete path ∉ ops) (s : Database × ScanDelta)
    (hfile : s.1.hasFile path = true ∨ ∃ f, .write f ∈ ops ∧ f.relPath = path) :
    (ops.foldl (applyOp h) s).1.hasFile path = true := by
  induction ops generalizing s with
  | nil =>
    rcases hfile with hfile | ⟨f, hf, -⟩
    · exact hfile
    · exact absurd hf List.not_mem_nil
  | cons op ops ih =>
    rw [List.mem_cons, not_or] at hdelete
    refine ih hdelete.2 _ ?_
    cases op with
    | write g =>
      have hwrite : (applyOp h s (.write g)).1.hasFile path =
          (s.1.hasFile path || path == g.relPath) := writeFileFacts_hasFile h g s.1 path
      rw [hwrite]
      rcases hfile with hfile | ⟨f, hf, rfl⟩
      · exact .inl (by rw [hfile, Bool.true_or])
      · rcases List.mem_cons.mp hf with heq | hf
        · cases heq
          exact .inl (by rw [beq_self_eq_true, Bool.or_true])
        · exact .inr ⟨f, hf, rfl⟩
    | delete q =>
      have hq : path ≠ q := fun heq => hdelete.1 (heq ▸ rfl)
      have hkept : (applyOp h s (.delete q)).1.hasFile path = s.1.hasFile path := by
        have hfst : (applyOp h s (.delete q)).1 = (deleteFile q s.1).1 := by
          unfold applyOp
          dsimp only
          split <;> simp [*]
        rw [hfst]
        exact (deleteFile_replaces q s.1).hasFile_eq hq
      rw [hkept]
      refine hfile.imp_right fun ⟨f, hf, hpath⟩ => ⟨f, ?_, hpath⟩
      exact (List.mem_cons.mp hf).resolve_left fun heq => nomatch heq

end Operations

section Scans

variable {h : Hashes} {c : PostprocessConfig} {src : Sources} {d : Database} {path : String}

/-- The walk lists the file and it can be parsed. -/
def Sources.Lists (src : Sources) (path : String) : Prop :=
  path ∈ src.discover ∧ ∃ f, src.parseOne path = .facts f

/-- The walk lists nothing that the path test excludes. -/
def Sources.Plain (src : Sources) : Prop := ∀ path ∈ src.discover, src.isPathExcluded path = false

theorem mem_writes {paths : List String} {delivered : List FileOutcome} {f : FileFacts}
    (hdelivers : Delivers src paths delivered) (hpath : path ∈ paths)
    (hf : src.parseOne path = .facts f) :
    .write f ∈ delivered.filterMap FileOutcome.op? ∧ f.relPath = path := by
  refine ⟨List.mem_filterMap.mpr ⟨.facts f, ?_, rfl⟩, ?_⟩
  · exact hdelivers.mem_iff.mpr (List.mem_map.mpr ⟨path, hpath, hf⟩)
  · have hrel := src.parseOne_relPath path
    rwa [hf] at hrel

theorem delete_not_mem_writes {delivered : List FileOutcome} :
    .delete path ∉ delivered.filterMap FileOutcome.op? := by
  intro hmem
  obtain ⟨outcome, -, hop⟩ := List.mem_filterMap.mp hmem
  cases outcome <;> cases hop

/-- A full scan keeps all that it lists. -/
theorem scanFull_hasFile {delivered : List FileOutcome}
    (hdelivers : Delivers src src.discover delivered) (hlists : src.Lists path) :
    (scanFull h src c delivered d).hasFile path = true := by
  obtain ⟨hdiscover, f, hf⟩ := hlists
  unfold scanFull scanFully
  rw [run_hasFile]
  obtain ⟨hwrite, hrel⟩ := mem_writes hdelivers hdiscover hf
  refine foldl_applyOp_hasFile ?_ _ (.inr ⟨f, List.mem_append_left _ hwrite, hrel⟩)
  rw [scanFullOps, List.mem_append, not_or]
  refine ⟨delete_not_mem_writes, fun hmem => ?_⟩
  obtain ⟨rel, hrel, heq⟩ := List.mem_map.mp hmem
  cases heq
  simp [hdiscover] at hrel

theorem mem_targets {requested : List String} (hpath : path ∈ requested)
    (hexcluded : src.isPathExcluded path = false) : path ∈ targets h src requested d := by
  unfold targets
  rw [List.mem_filter, mem_sortedSet, hexcluded, Bool.and_false]
  exact ⟨List.mem_append_left _ hpath, rfl⟩

/-- A scan of given files deletes nothing that it lists. -/
theorem delete_not_mem_scanFilesOps {requested : List String} {delivered : List FileOutcome}
    (hexcluded : src.isPathExcluded path = false) (hexists : src.existsAt path = true) :
    .delete path ∉ scanFilesOps h src requested delivered d := by
  rw [scanFilesOps, List.mem_append, List.mem_append, not_or, not_or]
  refine ⟨⟨fun hmem => ?_, fun hmem => ?_⟩, delete_not_mem_writes⟩
  · obtain ⟨rel, hrel, heq⟩ := List.mem_map.mp hmem
    cases heq
    rw [(List.mem_filter.mp hrel).2] at hexcluded
    cases hexcluded
  · obtain ⟨rel, hrel, heq⟩ := List.mem_map.mp hmem
    cases heq
    have hmissing := (List.mem_filter.mp hrel).2
    rw [hexists] at hmissing
    cases hmissing

/-- A scan of given files keeps what it lists, if the index has it or it is requested. -/
theorem scanFiles_hasFile {requested : List String} {delivered : List FileOutcome}
    (hdelivers : Delivers src (toParse h src requested d) delivered) (hlists : src.Lists path)
    (hexcluded : src.isPathExcluded path = false)
    (hlanguage : (Language.resolve (lastPart '/' path)).isSome)
    (hfile : d.hasFile path = true ∨ path ∈ requested) :
    (scanFiles h src c requested delivered d).hasFile path = true := by
  obtain ⟨-, f, hf⟩ := hlists
  have hexists := src.existsAt_of_facts path f hf
  unfold scanFiles scanIncrementally
  rw [runIncremental_hasFile]
  refine foldl_applyOp_hasFile (delete_not_mem_scanFilesOps hexcluded hexists) _ ?_
  refine hfile.imp_right fun hpath => ?_
  have hparse : path ∈ toParse h src requested d := by
    unfold toParse
    rw [List.mem_filter, hexists, hlanguage]
    exact ⟨mem_targets hpath hexcluded, rfl⟩
  obtain ⟨hwrite, hrel⟩ := mem_writes hdelivers hparse hf
  exact ⟨f, List.mem_append_right _ hwrite, hrel⟩

/-- What the walk lists has a language. -/
theorem discover_language (hpath : path ∈ src.discover) :
    (Language.resolve (lastPart '/' path)).isSome := by
  obtain ⟨names, hfile, hlanguage, -, rfl⟩ := mem_discover.mp hpath
  rw [List.nil_append, relPath,
    lastPart_joinWith (by simpa using hfile.ne_nil) texts_slashless, List.getLastD_eq_getLast?,
    List.getLast?_map]
  unfold languageOf at hlanguage
  cases hlast : names.getLast? with
  | none =>
    rw [hlast] at hlanguage
    cases hlanguage
  | some name =>
    rw [hlast] at hlanguage
    exact hlanguage

/-- Without backslashes in its names a tree lists nothing that the path test excludes. -/
theorem Sources.plain_of_backslashless
    (hback : ∀ path, FileAt src.root path → ∀ name ∈ path, '\\' ∉ name.text.toList) :
    src.Plain := by
  intro rel hrel
  obtain ⟨path, hfile, -, hreaches, rfl⟩ := mem_discover.mp hrel
  have hagrees : Agreeable src.normcase src.config path :=
    (agreeable_iff hfile.ne_nil (hback path hfile)).mpr fun hbare =>
      absurd (.inr hbare) ((reaches_iff hfile.ne_nil).mp hreaches)
  exact ((reaches_agrees_iff hfile.ne_nil).mpr hagrees).mp hreaches

end Scans

end RemyCC.Index
