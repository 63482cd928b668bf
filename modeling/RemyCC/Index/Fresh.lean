import RemyCC.Index.Reach

/-!
# Fresh kinds and clusters

The kinds and the clusters of an index are fresh if they are those that its
symbols and edges give. What they read of the edges are counts, so indexes that
count alike have the same kinds and clusters.
-/

namespace RemyCC.Index

open Relational Text

section Counts

variable {c : PostprocessConfig} {d d' : Database} {g : String} {files : List String}

/-- Whether the file that an edge leads to is one of some files. -/
def leadsInto (files : List String) (f : Option String) : Bool :=
  match f with
  | some f => files.contains f
  | none => false

def internalTest (files : List String) : EdgeTest := fun s f _ => files.contains s && leadsInto files f

def calledTest (files : List String) (name : String) : EdgeTest :=
  fun _ f q => leadsInto files f && q == some name

def intraTest (path : String) : EdgeTest := fun s f _ => s == path && f == some path

/-- Two indexes have equally many edges that pass a test. -/
def CountsAlike (p : EdgeTest) (d d' : Database) : Prop :=
  d'.edges.rows.countP (EdgeRow.passes p) = d.edges.rows.countP (EdgeRow.passes p)

theorem countsAlike_of_edges (h : d'.edges = d.edges) (p : EdgeTest) : CountsAlike p d d' := by
  unfold CountsAlike
  rw [h]

theorem internalEdgeCount_eq (h : CountsAlike (internalTest files) d d') :
    internalEdgeCount files d' = internalEdgeCount files d := h

theorem intraEdgeCount_eq {path : String} (h : CountsAlike (intraTest path) d d') :
    intraEdgeCount path d' = intraEdgeCount path d := h

theorem calledSymbols_count (files : List String) (name : String) (d : Database) :
    (calledSymbols files d).count name =
      d.edges.rows.countP (EdgeRow.passes (calledTest files name)) := by
  unfold calledSymbols
  rw [List.count_filterMap, List.countP_filter]
  refine List.countP_congr fun e _ => ?_
  have htest : e.passes (calledTest files name) =
      (leadsInto files e.calleeFile && e.calleeQualified == some name) := rfl
  rw [htest, Bool.and_comm]
  rfl

theorem calledSymbols_perm (h : ∀ name, CountsAlike (calledTest files name) d d') :
    List.Perm (calledSymbols files d') (calledSymbols files d) := by
  refine List.perm_iff_count.mpr fun name => ?_
  rw [calledSymbols_count, calledSymbols_count]
  exact h name

theorem rankCalled_of_perm {called called' : List String} (h : List.Perm called' called) :
    rankCalled called' = rankCalled called := by
  unfold rankCalled
  rw [sortedSet_eq_of_perm h]
  simp only [h.count_eq]

theorem entrySymbols_eq (h : ∀ name, CountsAlike (calledTest files name) d d') :
    entrySymbols c files d' = entrySymbols c files d := by
  unfold entrySymbols
  rw [rankCalled_of_perm (calledSymbols_perm h)]

/-- The entry symbols of some files as the text that a cluster stores. -/
def entryText (c : PostprocessConfig) (files : List String) (d : Database) : String :=
  Json.dumpsDefault (.arr ((entrySymbols c files d).map .str))

/-- A group too small or too loosely connected to form a cluster. -/
def loose (c : PostprocessConfig) (d : Database) (files : List String) : Bool :=
  files.length < 2 ∨
    Rounding.quotient (internalEdgeCount files d) files.length < c.clusterDensityThreshold

theorem newCluster_eq (c : PostprocessConfig) (d : Database) (x : String × List String) :
    newCluster c d x =
      if loose c d x.2 then none else some ⟨x.1, entryText c x.2 d, x.2⟩ := by
  unfold newCluster loose
  by_cases hsize : x.2.length < 2
  · simp [hsize]
  · by_cases hdense : Rounding.quotient (internalEdgeCount x.2 d) x.2.length <
        c.clusterDensityThreshold
    · simp [hdense]
    · simp only [hsize, hdense, or_self, decide_false, Bool.false_eq_true, if_false]
      rfl

theorem loose_eq (h : CountsAlike (internalTest files) d d') : loose c d' files = loose c d files := by
  unfold loose
  rw [internalEdgeCount_eq h]

theorem finalGroups_subset {files : List String} {x : String × List String}
    (hx : x ∈ finalGroups c (g, files)) : x.2 ⊆ files := by
  unfold finalGroups at hx
  split at hx
  · exact absurd hx List.not_mem_nil
  · split at hx
    · rw [groupsBy_rows hx]
      exact fun path hpath => (List.mem_filter.mp hpath).1
    · rw [List.mem_singleton.mp hx]
      exact List.Subset.refl _

theorem groupFiles_eq (h : ∀ path, topGroup path = g → d'.hasFile path = d.hasFile path) :
    groupFiles g d' = groupFiles g d := by
  have hsorted : ∀ d : Database,
      (groupFiles g d).Pairwise fun a b : String => (compare a b).isLE := fun d => by
    unfold groupFiles Database.filesByPath
    rw [map_orderBy]
    exact (orderBy_pairwise _).filter _
  have hnodup : ∀ d : Database, (groupFiles g d).Nodup := fun d => by
    have hperm := (orderBy_perm (compareOn FileRow.path) d.files.rows).map FileRow.path
    exact (hperm.nodup_iff.mpr d.files.distinct).filter _
  have hperm : List.Perm (groupFiles g d') (groupFiles g d) := by
    refine (List.perm_ext_iff_of_nodup (hnodup d') (hnodup d)).mpr fun path => ?_
    rw [mem_groupFiles, mem_groupFiles]
    constructor
    · rintro ⟨hfile, hg⟩
      exact ⟨(h path hg).symm.trans hfile, hg⟩
    · rintro ⟨hfile, hg⟩
      exact ⟨(h path hg).trans hfile, hg⟩
  refine hperm.eq_of_pairwise (fun a b _ _ hab hba => ?_) (hsorted d') (hsorted d)
  have heq : compare a b = .eq := Std.OrientedCmp.isLE_antisymm hab hba
  exact Std.LawfulEqCmp.eq_of_compare heq

theorem clustersIn_eq (hfiles : ∀ path, topGroup path = g → d'.hasFile path = d.hasFile path)
    (hinternal : ∀ files ⊆ groupFiles g d, CountsAlike (internalTest files) d d')
    (hcalled : ∀ files ⊆ groupFiles g d, ∀ name, CountsAlike (calledTest files name) d d') :
    clustersIn c g d' = clustersIn c g d := by
  unfold clustersIn
  rw [groupFiles_eq hfiles]
  refine List.filterMap_congr fun x hx => ?_
  have hsub := finalGroups_subset hx
  rw [newCluster_eq, newCluster_eq, loose_eq (hinternal x.2 hsub), entryText,
    entrySymbols_eq (hcalled x.2 hsub), entryText]

end Counts

section Fresh

variable {c : PostprocessConfig} {d d' : Database} {g : String}

structure Fresh (c : PostprocessConfig) (d : Database) : Prop where
  kinds : ∀ r ∈ d.files.rows, r.kindHint = some (fileKind c d r.path)
  clusters : ∀ g, clustersOf g d = (clustersIn c g d).map NewCluster.view

theorem fileKind_eq (hsymbols : ∀ path, symbolCount path d' = symbolCount path d)
    {path : String} (hintra : CountsAlike (intraTest path) d d') :
    fileKind c d' path = fileKind c d path := by
  unfold fileKind
  rw [hsymbols, intraEdgeCount_eq hintra]

theorem fileKind_of_views (h : SameButViews d d') (path : String) :
    fileKind c d' path = fileKind c d path :=
  fileKind_eq (fun path => by unfold symbolCount; rw [h.symbols])
    (countsAlike_of_edges h.edges _)

theorem clustersIn_of_views (h : SameButViews d d') : clustersIn c g d' = clustersIn c g d :=
  clustersIn_eq (fun _ _ => hasFile_of_fileKey h.files _)
    (fun _ _ => countsAlike_of_edges h.edges _) fun _ _ _ => countsAlike_of_edges h.edges _

/-- What a full computation of kinds and clusters leaves is fresh. -/
theorem fresh_detect (hd : Enrolled d) : Fresh c (detectClusters c (computeFileKinds c d)) := by
  have hkinds : SameButViews d (computeFileKinds c d) := computeFileKindsFor_same c _ d
  have hdetect : SameButViews (computeFileKinds c d) (detectClusters c (computeFileKinds c d)) :=
    detectClustersFor_same c _ _
  have henrolled : Enrolled (computeFileKinds c d) := hd.computeFileKindsFor c _
  refine ⟨fun r hr => ?_, fun g => ?_⟩
  · rw [fileKind_of_views (hkinds.trans hdetect)]
    have hfiles : (detectClusters c (computeFileKinds c d)).files = (computeFileKinds c d).files :=
      detectClustersFor_files c _ _
    rw [hfiles] at hr
    obtain ⟨x, hx, rfl⟩ := List.mem_map.mp hr
    have hpath : (d.files.rows.map FileRow.path).contains x.path = true :=
      List.contains_iff_mem.mpr (List.mem_map_of_mem hx)
    rw [if_pos hpath]
  · rw [detectClusters_clustersOf henrolled, clustersIn_of_views hdetect]

theorem fresh_run (hd : Formed d) (c : PostprocessConfig) : Fresh c (run c d) := by
  unfold run
  exact fresh_detect ((hd.resolveFull c).resynthesize c).enrolled

end Fresh

end RemyCC.Index
