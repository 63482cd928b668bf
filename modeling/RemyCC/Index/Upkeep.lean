import RemyCC.Index.Fresh

/-!
# Incremental kinds and clusters

Incremental postprocessing keeps all kinds as a full one computes them. It keeps
a cluster of a group that the changes do not reach as it was, although calls
from the touched files that are gone may have counted for its entry symbols.
-/

namespace RemyCC.Index

open Relational Text

/-- The same kind of every file and the same clusters of every top-level group. -/
structure SameViews (d d' : Database) : Prop where
  kinds : d'.files.rows.map (fun r => (r.path, r.kindHint)) =
    d.files.rows.map fun r => (r.path, r.kindHint)
  clusters : ∀ g, clustersOf g d' = clustersOf g d

/-- The entry symbols stored for the clusters of a group are those that the
calls from outside some files give. -/
def EntriesKept (c : PostprocessConfig) (touched : List String) (g : String) (d : Database) :
    Prop :=
  ∀ k ∈ d.clusters.rows, clusterGroup k.name = g →
    entryText c (membersOf k.id d) (d.withoutCallsFrom touched) = k.entrySymbols

/-- In every group that the changes do not reach, the calls lost with the
touched files do not count for the entry symbols. -/
def LossesKept (h : Hashes) (c : PostprocessConfig) (ops : List FileOp) (d : Database) : Prop :=
  ∀ g, ¬Reached c (applyOps h ops d).2 (applyOps h ops d).1 g →
    EntriesKept c (applyOps h ops d).2.touchedFiles g d

section Step

variable {c : PostprocessConfig} {d₀ d : Database} {delta : ScanDelta} {g : String}

/-- The index after the passes before file kinds. -/
def reworked (c : PostprocessConfig) (delta : ScanDelta) (d : Database) : Database :=
  resynthesize c (resolveTargets c delta d)

theorem reworked_files (c : PostprocessConfig) (delta : ScanDelta) (d : Database) :
    (reworked c delta d).files = d.files :=
  (resynthesize_same c _).files.trans (resolveTargets_same delta d).files

theorem not_affected_of_group {path : String} (hg : ¬Reached c delta d g)
    (hpath : topGroup path = g) : path ∉ affectedFiles c delta d := by
  intro hmem
  refine hg (reached_iff g |>.mpr ?_)
  rw [List.contains_iff_mem, mem_sortedSet, ← hpath]
  exact List.mem_map_of_mem hmem

theorem untouched_of_group {path : String} (hg : ¬Reached c delta d g)
    (hpath : topGroup path = g) : path ∉ delta.touchedFiles := fun hmem =>
  not_affected_of_group hg hpath (affected_touched hmem)

theorem withoutCalls_hasFile (files : List String) (d : Database) (path : String) :
    (d.withoutCallsFrom files).hasFile path = d.hasFile path := rfl

theorem Tracks.hasFile_of_group (h : Tracks d₀ d delta) (hg : ¬Reached c delta d g) {path : String}
    (hpath : topGroup path = g) : (reworked c delta d).hasFile path = d₀.hasFile path := by
  have hfiles : (reworked c delta d).hasFile path = d.hasFile path := by
    unfold Database.hasFile Database.file?
    rw [reworked_files]
  rw [hfiles]
  exact congrArg Option.isSome (h.files path (untouched_of_group hg hpath))

/-- The files of a group that is not reached are not affected. -/
theorem spares_of_group {p : EdgeTest} {files : List String} (hd : Formed d₀)
    (hg : ¬Reached c delta d g) (hfiles : files ⊆ groupFiles g d₀)
    (hp : ∀ s f q, p s f q = true → leadsInto files f = true) :
    p.Spares (affectedFiles c delta d) := by
  intro s f q hpass
  have hinto := hp s f q hpass
  cases f with
  | none => exact Bool.noConfusion hinto
  | some path =>
    obtain ⟨hfile, hgroup⟩ := mem_groupFiles.mp (hfiles (List.contains_iff_mem.mp hinto))
    refine ⟨path, rfl, fun hempty => ?_, not_affected_of_group hg hgroup⟩
    rw [hempty, hd.named] at hfile
    exact Bool.noConfusion hfile

theorem Tracks.countsAlike (h : Tracks d₀ d delta) (hd : Formed d) {p : EdgeTest}
    (hp : p.Spares (affectedFiles c delta d)) :
    CountsAlike p (d₀.withoutCallsFrom delta.touchedFiles) (reworked c delta d) := by
  unfold CountsAlike reworked
  exact h.countP_eq hd.leading hp

/-- The clusters of a group that is not reached are formed from the calls that
are left. -/
theorem Tracks.clustersIn_eq (h : Tracks d₀ d delta) (hd₀ : Formed d₀) (hd : Formed d)
    (hg : ¬Reached c delta d g) :
    clustersIn c g (reworked c delta d) =
      clustersIn c g (d₀.withoutCallsFrom delta.touchedFiles) := by
  refine Index.clustersIn_eq (fun path hpath => h.hasFile_of_group hg hpath)
    (fun files hfiles => ?_) fun files hfiles name => ?_
  · have hspares : (internalTest files).Spares (affectedFiles c delta d) :=
      spares_of_group hd₀ hg hfiles fun s f q hpass => (Bool.and_eq_true_iff.mp hpass).2
    exact h.countsAlike hd hspares
  · have hspares : (calledTest files name).Spares (affectedFiles c delta d) :=
      spares_of_group hd₀ hg hfiles fun s f q hpass => (Bool.and_eq_true_iff.mp hpass).1
    exact h.countsAlike hd hspares

/-- A test of edges that start in untouched files does not see the loss. -/
theorem countsAlike_without {p : EdgeTest} {touched : List String}
    (hp : ∀ s f q, p s f q = true → s ∉ touched) (d : Database) :
    CountsAlike p d (d.withoutCallsFrom touched) := by
  change (d.edges.rows.filter fun e => !touched.contains e.sourceFile).countP (EdgeRow.passes p) = _
  rw [List.countP_filter]
  refine List.countP_congr fun e _ => ?_
  rw [Bool.and_eq_true_iff]
  refine ⟨And.left, fun hpass => ⟨hpass, ?_⟩⟩
  simpa using hp _ _ _ hpass

theorem loose_without (hg : ¬Reached c delta d g) {files : List String}
    (hfiles : files ⊆ groupFiles g d₀) :
    loose c (d₀.withoutCallsFrom delta.touchedFiles) files = loose c d₀ files := by
  refine loose_eq (countsAlike_without (fun s f q hpass => ?_) d₀)
  have hsource := List.contains_iff_mem.mp (Bool.and_eq_true_iff.mp hpass).1
  exact untouched_of_group hg (mem_groupFiles.mp (hfiles hsource)).2

/-- The loss changes no cluster of a group that is not reached just if it
changes no entry symbols. -/
theorem clustersIn_without_iff (hg : ¬Reached c delta d g) :
    clustersIn c g (d₀.withoutCallsFrom delta.touchedFiles) = clustersIn c g d₀ ↔
      ∀ k ∈ clustersIn c g d₀,
        entryText c k.files (d₀.withoutCallsFrom delta.touchedFiles) = k.entrySymbols := by
  have hfiles : groupFiles g (d₀.withoutCallsFrom delta.touchedFiles) = groupFiles g d₀ := rfl
  have hleft : clustersIn c g (d₀.withoutCallsFrom delta.touchedFiles) =
      (finalGroups c (g, groupFiles g d₀)).filterMap fun x =>
        if loose c d₀ x.2 then none
        else some ⟨x.1, entryText c x.2 (d₀.withoutCallsFrom delta.touchedFiles), x.2⟩ := by
    unfold clustersIn
    rw [hfiles]
    refine List.filterMap_congr fun x hx => ?_
    rw [newCluster_eq, loose_without hg (finalGroups_subset hx)]
  have hright : clustersIn c g d₀ = (finalGroups c (g, groupFiles g d₀)).filterMap fun x =>
      if loose c d₀ x.2 then none else some ⟨x.1, entryText c x.2 d₀, x.2⟩ := by
    unfold clustersIn
    exact List.filterMap_congr fun x _ => newCluster_eq c d₀ x
  rw [hleft, hright, filterMap_ite_eq_iff]
  constructor
  · intro hall k hk
    obtain ⟨x, hx, hsome⟩ := List.mem_filterMap.mp hk
    split at hsome
    · cases hsome
    · rename_i hloose
      have hsame := hall x hx (Bool.eq_false_iff.mpr hloose)
      cases hsome
      exact congrArg NewCluster.entrySymbols hsame
  · intro hall x hx hloose
    have hmem : (⟨x.1, entryText c x.2 d₀, x.2⟩ : NewCluster) ∈
        (finalGroups c (g, groupFiles g d₀)).filterMap fun x =>
          if loose c d₀ x.2 then none else some ⟨x.1, entryText c x.2 d₀, x.2⟩ :=
      List.mem_filterMap.mpr ⟨x, hx, by rw [hloose]; rfl⟩
    have hkept : entryText c x.2 (d₀.withoutCallsFrom delta.touchedFiles) = entryText c x.2 d₀ :=
      hall ⟨x.1, entryText c x.2 d₀, x.2⟩ hmem
    rw [hkept]

theorem entriesKept_iff (hfresh : Fresh c d₀) (touched : List String) (g : String) :
    EntriesKept c touched g d₀ ↔ ∀ k ∈ clustersIn c g d₀,
      entryText c k.files (d₀.withoutCallsFrom touched) = k.entrySymbols := by
  have hview : EntriesKept c touched g d₀ ↔ ∀ v ∈ clustersOf g d₀,
      entryText c v.files (d₀.withoutCallsFrom touched) = v.entrySymbols := by
    unfold EntriesKept clustersOf
    simp only [List.forall_mem_map, List.mem_filter, ClusterRow.isOf, beq_iff_eq, and_imp]
    exact Iff.rfl
  rw [hview, hfresh.clusters g]
  simp only [List.forall_mem_map]
  exact Iff.rfl

theorem symbolCount_of_names {d d' : Database}
    (h : d'.symbols.rows.map nameKey = d.symbols.rows.map nameKey) (path : String) :
    symbolCount path d' = symbolCount path d := by
  have hcount : ∀ d : Database, symbolCount path d =
      (d.symbols.rows.map nameKey).countP fun k => k.1 == path := fun d => by
    rw [List.countP_map]
    rfl
  rw [hcount, hcount, h]

theorem Tracks.symbolCount_eq (h : Tracks d₀ d delta) {path : String}
    (hpath : path ∉ delta.touchedFiles) :
    symbolCount path (reworked c delta d) = symbolCount path d₀ := by
  have hnames : (reworked c delta d).symbols.rows.map nameKey = d.symbols.rows.map nameKey := by
    unfold reworked
    rw [(resynthesize_same c _).names, (resolveTargets_same delta d).symbols]
  have hfilter : ∀ d : Database, symbolCount path d =
      (d.symbols.rows.filter fun s => s.filePath ∉ delta.touchedFiles).countP
        fun s => s.filePath == path := fun d => by
    unfold symbolCount
    rw [List.countP_filter]
    refine List.countP_congr fun s _ => ?_
    cases hs : s.filePath == path with
    | false => rfl
    | true => simp [beq_iff_eq.mp hs, hpath]
  rw [symbolCount_of_names hnames, hfilter, hfilter, h.sources]

/-- A file that is not affected keeps its kind. -/
theorem Tracks.fileKind_eq (h : Tracks d₀ d delta) (hd : Formed d) {path : String}
    (hpath : path ∉ affectedFiles c delta d) (hne : path ≠ "") :
    fileKind c (reworked c delta d) path = fileKind c d₀ path := by
  have huntouched : path ∉ delta.touchedFiles := fun hmem => hpath (affected_touched hmem)
  have hspares : (intraTest path).Spares (affectedFiles c delta d) := by
    intro s f q hpass
    obtain ⟨-, hf⟩ := Bool.and_eq_true_iff.mp hpass
    exact ⟨path, beq_iff_eq.mp hf, hne, hpath⟩
  have hloss : CountsAlike (intraTest path) d₀ (d₀.withoutCallsFrom delta.touchedFiles) :=
    countsAlike_without (fun s f q hpass => by
      rw [beq_iff_eq.mp (Bool.and_eq_true_iff.mp hpass).1]
      exact huntouched) d₀
  have hintra : CountsAlike (intraTest path) d₀ (reworked c delta d) :=
    (h.countsAlike hd hspares).trans hloss
  unfold fileKind
  rw [h.symbolCount_eq huntouched, intraEdgeCount_eq hintra]

theorem file?_of_mem {r : FileRow} (hr : r ∈ d.files.rows) : d.file? r.path = some r := by
  have hmem : r ∈ (d.file? r.path).toList := by
    rw [← filter_path]
    exact List.mem_filter.mpr ⟨hr, beq_self_eq_true _⟩
  exact Option.mem_toList.mp hmem

/-- The row of an untouched file stands in the index from before the changes. -/
theorem Tracks.row_mem (h : Tracks d₀ d delta) {r : FileRow} (hr : r ∈ d.files.rows)
    (hpath : r.path ∉ delta.touchedFiles) : r ∈ d₀.files.rows := by
  have hfile := h.files r.path hpath
  rw [file?_of_mem hr] at hfile
  exact List.mem_of_find?_eq_some hfile.symm

theorem Tracks.kinds (h : Tracks d₀ d delta) (hresolved : Resolved c d₀) (hfresh : Fresh c d₀)
    (hd : Formed d) :
    (runIncremental c delta d).files.rows.map (fun r => (r.path, r.kindHint)) =
      (run c d).files.rows.map fun r => (r.path, r.kindHint) := by
  have hfacts := (h.sameFacts hresolved).resynthesize c
  have hkind : ∀ path, fileKind c
      (resynthesize c (resolveCallEdges c (resetDirectEdgeResolution d))) path =
        fileKind c (reworked c delta d) path := fun path =>
    (Index.fileKind_eq (fun path => by unfold symbolCount; rw [hfacts.symbols])
      (countsAlike_of_edges hfacts.edges _)).symm
  have hfull : (run c d).files.rows.map (fun r => (r.path, r.kindHint)) =
      d.files.rows.map fun r => (r.path, some (fileKind c (reworked c delta d) r.path)) := by
    unfold run detectClusters
    rw [detectClustersFor_files]
    unfold computeFileKinds computeFileKindsFor
    rw [Keyed.update_rows, (resynthesize_same c _).files, (resolveFull_same d).files, List.map_map]
    refine List.map_congr_left fun r hr => ?_
    have hmem : (d.files.rows.map FileRow.path).contains r.path = true :=
      List.contains_iff_mem.mpr (List.mem_map_of_mem hr)
    rw [Function.comp_apply, if_pos hmem, hkind]
  have hincremental : (runIncremental c delta d).files.rows.map (fun r => (r.path, r.kindHint)) =
      d.files.rows.map fun r => (r.path, some (fileKind c (reworked c delta d) r.path)) := by
    unfold runIncremental
    rw [detectClustersFor_files]
    unfold computeFileKindsFor
    rw [Keyed.update_rows, (resynthesize_same c _).files, (resolveTargets_same delta d).files,
      List.map_map]
    refine List.map_congr_left fun r hr => ?_
    rw [Function.comp_apply]
    split
    · rfl
    · rename_i hmiss
      have hpath : r.path ∉ affectedFiles c delta d := fun hmem =>
        hmiss (List.contains_iff_mem.mpr hmem)
      have hne : r.path ≠ "" := by
        intro hempty
        have hnamed := hd.named
        rw [← hempty, Database.hasFile, file?_of_mem hr] at hnamed
        exact Bool.noConfusion hnamed
      have hrow := h.row_mem hr fun hmem => hpath (affected_touched hmem)
      rw [hfresh.kinds r hrow, h.fileKind_eq hd hpath hne]
  rw [hfull, hincremental]

theorem clustersOf_of_tables {d d' : Database} (hclusters : d'.clusters = d.clusters)
    (hmembers : d'.members = d.members) (g : String) : clustersOf g d' = clustersOf g d := by
  unfold clustersOf viewOf membersOf
  rw [hclusters, hmembers]

theorem computeFileKindsFor_clustersOf (c : PostprocessConfig) (paths : List String)
    (d : Database) (g : String) : clustersOf g (computeFileKindsFor c paths d) = clustersOf g d :=
  clustersOf_of_tables rfl rfl g

theorem Formed.reworked (hd : Formed d) : Formed (reworked c delta d) :=
  (hd.resolveTargets c delta).resynthesize c

theorem Tracks.clustersOf_full (h : Tracks d₀ d delta) (hresolved : Resolved c d₀)
    (hd : Formed d) (g : String) :
    clustersOf g (run c d) = (clustersIn c g (reworked c delta d)).map NewCluster.view := by
  have hfacts := (h.sameFacts hresolved).resynthesize c
  have hsame : clustersIn c g (reworked c delta d) =
      clustersIn c g (resynthesize c (resolveCallEdges c (resetDirectEdgeResolution d))) := by
    have hfile : ∀ path, (reworked c delta d).hasFile path =
        (resynthesize c (resolveCallEdges c (resetDirectEdgeResolution d))).hasFile path := by
      intro path
      unfold Database.hasFile Database.file? Index.reworked
      rw [hfacts.files]
    exact Index.clustersIn_eq (fun path _ => hfile path)
      (fun _ _ => countsAlike_of_edges hfacts.edges _) fun _ _ _ =>
        countsAlike_of_edges hfacts.edges _
  have hkinds := computeFileKindsFor_same c
    ((resynthesize c (resolveCallEdges c (resetDirectEdgeResolution d))).files.rows.map
      FileRow.path) (resynthesize c (resolveCallEdges c (resetDirectEdgeResolution d)))
  have henrolled : Enrolled (computeFileKinds c
      (resynthesize c (resolveCallEdges c (resetDirectEdgeResolution d)))) :=
    ((hd.resolveFull c).resynthesize c).enrolled.computeFileKindsFor c _
  unfold run
  rw [detectClusters_clustersOf henrolled, hsame]
  unfold computeFileKinds
  rw [clustersIn_of_views hkinds]

theorem Tracks.clustersOf_incremental (h : Tracks d₀ d delta) (hd : Formed d) (g : String) :
    clustersOf g (runIncremental c delta d) =
      if (sortedSet ((affectedFiles c delta d).map topGroup)).contains g then
        (clustersIn c g (reworked c delta d)).map NewCluster.view
      else clustersOf g d₀ := by
  have hkinds := computeFileKindsFor_same c (affectedFiles c delta d) (reworked c delta d)
  have henrolled : Enrolled (computeFileKindsFor c (affectedFiles c delta d)
      (reworked c delta d)) := hd.reworked.enrolled.computeFileKindsFor c _
  have hclusters : (reworked c delta d).clusters = d₀.clusters :=
    ((resynthesize_same c _).clusters.trans (resolveTargets_same delta d).clusters).trans h.clusters
  have hmembers : (reworked c delta d).members = d₀.members :=
    ((resynthesize_same c _).members.trans (resolveTargets_same delta d).members).trans h.members
  have hrun : runIncremental c delta d =
      detectClustersFor c (sortedSet ((affectedFiles c delta d).map topGroup))
        (computeFileKindsFor c (affectedFiles c delta d) (reworked c delta d)) := by
    unfold runIncremental Index.reworked
    dsimp only
  rw [hrun, detectClustersFor_clustersOf henrolled, clustersIn_of_views hkinds]
  rw [computeFileKindsFor_clustersOf, clustersOf_of_tables hclusters hmembers]

theorem view_injective : Function.Injective NewCluster.view := by
  rintro ⟨name, entries, files⟩ ⟨name', entries', files'⟩ heq
  simp only [NewCluster.view, ClusterView.mk.injEq] at heq
  obtain ⟨rfl, rfl, -, rfl⟩ := heq
  rfl

/-- From a fresh index the step meets the full computation just if the losses
do not count. -/
theorem Tracks.sameViews_iff (h : Tracks d₀ d delta) (hresolved : Resolved c d₀)
    (hfresh : Fresh c d₀) (hd₀ : Formed d₀) (hd : Formed d) :
    SameViews (run c d) (runIncremental c delta d) ↔
      ∀ g, ¬Reached c delta d g → EntriesKept c delta.touchedFiles g d₀ := by
  have hclusters : ∀ g, ¬Reached c delta d g →
      (clustersOf g (runIncremental c delta d) = clustersOf g (run c d) ↔
        EntriesKept c delta.touchedFiles g d₀) := by
    intro g hg
    rw [h.clustersOf_incremental hd, if_neg fun hmem => hg ((reached_iff g).mpr hmem),
      h.clustersOf_full hresolved hd, hfresh.clusters, view_injective.list_map.eq_iff,
      h.clustersIn_eq hd₀ hd hg, entriesKept_iff hfresh, ← clustersIn_without_iff hg]
    exact eq_comm
  constructor
  · exact fun hsame g hg => (hclusters g hg).mp (hsame.clusters g)
  · refine fun hkept => ⟨h.kinds hresolved hfresh hd, fun g => ?_⟩
    by_cases hg : Reached c delta d g
    · rw [h.clustersOf_incremental hd, if_pos ((reached_iff g).mp hg),
        h.clustersOf_full hresolved hd]
    · exact (hclusters g hg).mpr (hkept g hg)

end Step

section Runs

variable {h : Hashes} {c : PostprocessConfig} {d d' : Database}

/-- The databases that runs under one configuration lead to in which no step
loses calls that count. -/
inductive IndexedKeeping (h : Hashes) (c : PostprocessConfig) : Database → Prop
  | full {d : Database} (ops : List FileOp) (hd : Indexed h d) :
      IndexedKeeping h c (scanFully h c ops d)
  | incremental {d : Database} (ops : List FileOp) (hd : IndexedKeeping h c d)
      (hkept : LossesKept h c ops d) : IndexedKeeping h c (scanIncrementally h c ops d)

theorem IndexedKeeping.under (hd : IndexedKeeping h c d) : IndexedUnder h c d := by
  induction hd with
  | full ops hd => exact .full ops hd
  | incremental ops _ _ ih => exact .incremental ops ih

theorem SameViews.fresh (hviews : SameViews d d') (hsame : SameOutcome d d') (hd : Fresh c d) :
    Fresh c d' := by
  refine ⟨fun r hr => ?_, fun g => ?_⟩
  · have hmem : (r.path, r.kindHint) ∈ d.files.rows.map fun r => (r.path, r.kindHint) := by
      rw [← hviews.kinds]
      exact List.mem_map_of_mem hr
    obtain ⟨x, hx, heq⟩ := List.mem_map.mp hmem
    obtain ⟨hpath, hkind⟩ := Prod.mk.inj heq
    rw [← hkind, hd.kinds x hx, hpath]
    have hcount : ∀ path, symbolCount path d' = symbolCount path d := fun path => by
      unfold symbolCount
      rw [hsame.symbols]
    rw [fileKind_eq hcount (countsAlike_of_edges hsame.edges _)]
  · rw [hviews.clusters, hd.clusters]
    rw [clustersIn_eq (fun _ _ => hasFile_of_fileKey hsame.files _)
      (fun _ _ => countsAlike_of_edges hsame.edges _) fun _ _ _ =>
        countsAlike_of_edges hsame.edges _]

theorem sameViews_step_iff (hd : IndexedUnder h c d) (hfresh : Fresh c d) (ops : List FileOp) :
    SameViews (scanFully h c ops d) (scanIncrementally h c ops d) ↔ LossesKept h c ops d := by
  have htracks := tracks_applyOps hd.indexed.housed h ops
  have hformed := hd.indexed.formed
  exact htracks.sameViews_iff hd.resolved hfresh hformed (hformed.applyOps h ops)

theorem IndexedKeeping.fresh (hd : IndexedKeeping h c d) : Fresh c d := by
  induction hd with
  | full ops hd => exact fresh_run (hd.formed.applyOps h ops) c
  | @incremental d ops hd hkept ih =>
    have hunder := hd.under
    have hviews := (sameViews_step_iff hunder ih ops).mpr hkept
    have hfull : Fresh c (scanFully h c ops d) :=
      fresh_run (hunder.indexed.formed.applyOps h ops) c
    exact hviews.fresh (sameOutcome_scan hunder.indexed hunder.resolved ops) hfull

theorem scanIncrementally_views_iff (hd : IndexedKeeping h c d) (ops : List FileOp) :
    SameViews (scanFully h c ops d) (scanIncrementally h c ops d) ↔ LossesKept h c ops d :=
  sameViews_step_iff hd.under hd.fresh ops

end Runs

section Example

theorem task_named : "lib/task.py" ≠ "" := by decide

def mainFacts (structHash : String) (calls : List (String × String)) : FileFacts :=
  pythonFacts "app/main.py" structHash ["main"] calls main_named (List.nodup_singleton _)

def workFacts : FileFacts :=
  pythonFacts "lib/work.py" "1" ["run"] [("run", "go")] work_named (List.nodup_singleton _)

def taskFacts : FileFacts :=
  pythonFacts "lib/task.py" "1" ["go"] [] task_named (List.nodup_singleton _)

/-- A call into a cluster of another group. -/
def twoGroups : Database :=
  scanFully plainHashes .default
    [.write (mainFacts "1" [("main", "run")]), .write workFacts, .write taskFacts] .empty

theorem twoGroups_keeping : IndexedKeeping plainHashes .default twoGroups :=
  .full [.write (mainFacts "1" [("main", "run")]), .write workFacts, .write taskFacts] .empty

/-- The caller is edited and calls nothing any more. -/
def dropCall : List FileOp := [.write (mainFacts "2" [])]

theorem scanIncrementally_views_dropped :
    SameViews (scanFully plainHashes .default dropCall twoGroups)
        (scanIncrementally plainHashes .default dropCall twoGroups) ↔
      LossesKept plainHashes .default dropCall twoGroups :=
  scanIncrementally_views_iff twoGroups_keeping dropCall

theorem dropped_call_still_counts :
    ¬∀ (h : Hashes) (c : PostprocessConfig) (d : Database) (ops : List FileOp),
      IndexedUnder h c d → SameViews (scanFully h c ops d) (scanIncrementally h c ops d) := by
  intro hclaim
  have hsame := hclaim plainHashes .default twoGroups dropCall twoGroups_keeping.under
  have hdiffer : clustersOf "lib" (scanIncrementally plainHashes .default dropCall twoGroups) ≠
      clustersOf "lib" (scanFully plainHashes .default dropCall twoGroups) := by
    decide +kernel
  exact hdiffer (hsame.clusters "lib")

end Example

end RemyCC.Index
