import Mathlib.Data.List.TakeWhile
import RemyCC.Relational.Grouping
import RemyCC.Index.Clusters

/-!
# Clusters group by group

The clusters of a top-level group depend on that group alone, and recomputing
the clusters of some groups leaves those of every other group as they are.
-/

namespace RemyCC.Index

open Relational Text

section Names

theorem topGroup_eq (path : String) :
    topGroup path = if '/' ∈ path.toList then firstPart '/' path else "_root" := by
  unfold topGroup beforeFirst firstPart
  rw [show "/".toList = ['/'] from rfl, beforeChars_singleton]
  by_cases hmem : '/' ∈ path.toList
  · simp only [if_pos hmem, Option.map_some]
  · simp only [if_neg hmem, Option.map_none]

theorem firstPart_idem (sep : Char) (s : String) : firstPart sep (firstPart sep s) = firstPart sep s := by
  unfold firstPart
  rw [String.toList_ofList, List.takeWhile_idem]

theorem clusterGroup_topGroup (path : String) : clusterGroup (topGroup path) = topGroup path := by
  rw [topGroup_eq]
  split
  · exact firstPart_idem '/' path
  · decide

theorem firstPart_append (sep : Char) (s t : String) :
    firstPart sep (firstPart sep s ++ String.singleton sep ++ t) = firstPart sep s := by
  have hall : ∀ c ∈ s.toList.takeWhile (· ≠ sep), decide (c ≠ sep) = true := by
    intro c hc
    exact List.mem_takeWhile_imp (p := fun c => decide (c ≠ sep)) hc
  unfold firstPart
  simp only [String.toList_append, String.toList_ofList, String.toList_singleton, List.append_assoc]
  rw [List.takeWhile_append_of_pos hall]
  simp

theorem split_cases {path first second third : String} {rest : List String}
    (h : split '/' path = first :: second :: third :: rest) :
    '/' ∈ path.toList ∧ first = firstPart '/' path := by
  have hhead : (split '/' path).head? = some (firstPart '/' path) := by
    unfold split firstPart
    rw [List.head?_map, splitChar_head]
    rfl
  rw [h] at hhead
  refine ⟨?_, Option.some.inj hhead⟩
  by_contra hmem
  unfold split at h
  rw [splitChar_of_not_mem hmem] at h
  simp at h

theorem clusterGroup_subGroup (path : String) :
    clusterGroup (subGroup (topGroup path) path) = topGroup path := by
  unfold subGroup
  split
  · rename_i first second third rest hsplit
    obtain ⟨hmem, hfirst⟩ := split_cases hsplit
    rw [topGroup_eq, if_pos hmem, hfirst]
    exact firstPart_append '/' path second
  · exact clusterGroup_topGroup path

end Names

section Groups

variable {c : PostprocessConfig} {d : Database} {g : String}

/-- The files of a top-level group in the order of their paths. -/
def groupFiles (g : String) (d : Database) : List String :=
  (d.filesByPath.map FileRow.path).filter fun path => topGroup path == g

/-- The clusters that the files of one group form. -/
def clustersIn (c : PostprocessConfig) (g : String) (d : Database) : List NewCluster :=
  (finalGroups c (g, groupFiles g d)).filterMap (newCluster c d)

theorem groupsBy_key {α : Type} {key : α → String} {rows : List α} {x : String × List α}
    (hx : x ∈ groupsBy key rows) : ∃ r ∈ rows, key r = x.1 := by
  have hmem : x ∈ (groupsBy key rows).filter fun y => y.1 = x.1 :=
    List.mem_filter.mpr ⟨hx, decide_eq_true rfl⟩
  rw [groupsBy_filter] at hmem
  cases hrows : rows.filter fun r => key r = x.1 with
  | nil =>
    rw [hrows] at hmem
    exact absurd hmem List.not_mem_nil
  | cons r rest =>
    have hr : r ∈ rows.filter fun r => key r = x.1 := hrows ▸ List.mem_cons_self
    exact ⟨r, (List.mem_filter.mp hr).1, of_decide_eq_true (List.mem_filter.mp hr).2⟩

/-- A cluster is named after its group. -/
theorem finalGroups_group {files : List String} (hfiles : ∀ path ∈ files, topGroup path = g)
    {x : String × List String} (hx : x ∈ finalGroups c (g, files)) : clusterGroup x.1 = g := by
  unfold finalGroups at hx
  split at hx
  · exact absurd hx List.not_mem_nil
  · rename_i hsize
    split at hx
    · obtain ⟨path, hpath, hkey⟩ := groupsBy_key hx
      rw [← hkey, ← hfiles path hpath]
      exact clusterGroup_subGroup path
    · rw [List.mem_singleton.mp hx]
      cases files with
      | nil => simp at hsize
      | cons path rest =>
        rw [← hfiles path List.mem_cons_self]
        exact clusterGroup_topGroup path

theorem newCluster_name {x : String × List String} {k : NewCluster}
    (h : newCluster c d x = some k) : k.name = x.1 := by
  unfold newCluster at h
  split at h
  · cases h
  · split at h
    · cases h
    · cases h
      rfl

theorem filterMap_group {files : List String} (hfiles : ∀ path ∈ files, topGroup path = g)
    (g' : String) :
    ((finalGroups c (g, files)).filterMap (newCluster c d)).filter
        (fun k => clusterGroup k.name == g') =
      if g = g' then (finalGroups c (g, files)).filterMap (newCluster c d) else [] := by
  have hname : ∀ k ∈ (finalGroups c (g, files)).filterMap (newCluster c d),
      clusterGroup k.name = g := by
    intro k hk
    obtain ⟨x, hx, hnew⟩ := List.mem_filterMap.mp hk
    rw [newCluster_name hnew]
    exact finalGroups_group hfiles hx
  split
  · rename_i heq
    exact List.filter_eq_self.mpr fun k hk => beq_iff_eq.mpr ((hname k hk).trans heq)
  · rename_i hne
    refine List.filter_eq_nil_iff.mpr fun k hk h => hne ?_
    exact (hname k hk).symm.trans (beq_iff_eq.mp h)

theorem pathsInScope_filter (scope : List String) (d : Database) (g : String) :
    (pathsInScope scope d).filter (fun path => topGroup path = g) =
      if scope.contains g then groupFiles g d else [] := by
  unfold pathsInScope groupFiles
  rw [List.filter_filter]
  split
  · rename_i hg
    refine List.filter_congr fun path _ => ?_
    by_cases hpath : topGroup path = g
    · simp [hpath, List.contains_iff_mem.mp hg]
    · simp [hpath]
  · rename_i hg
    refine List.filter_eq_nil_iff.mpr fun path _ h => hg ?_
    simp only [Bool.and_eq_true, decide_eq_true_eq] at h
    rw [← h.1]
    exact h.2

theorem newClusters_filter (c : PostprocessConfig) (scope : List String) (d : Database)
    (g : String) :
    (newClusters c scope d).filter (fun k => clusterGroup k.name == g) =
      if scope.contains g then clustersIn c g d else [] := by
  have hgroup : ∀ x ∈ groupsBy topGroup (pathsInScope scope d), ∀ path ∈ x.2,
      topGroup path = x.1 := by
    intro x hx path hpath
    rw [groupsBy_rows hx] at hpath
    exact of_decide_eq_true (List.mem_filter.mp hpath).2
  have hflat : ∀ groups : List (String × List String),
      (∀ x ∈ groups, ∀ path ∈ x.2, topGroup path = x.1) →
      ((groups.flatMap (finalGroups c)).filterMap (newCluster c d)).filter
          (fun k => clusterGroup k.name == g) =
        ((groups.filter fun x => x.1 = g).flatMap (finalGroups c)).filterMap (newCluster c d) := by
    intro groups hgroups
    induction groups with
    | nil => rfl
    | cons x groups ih =>
      rw [List.flatMap_cons, List.filterMap_append, List.filter_append,
        ih fun y hy => hgroups y (List.mem_cons_of_mem _ hy),
        filterMap_group (g := x.1) (hgroups x List.mem_cons_self) g]
      by_cases hx : x.1 = g
      · have hkeep : (x :: groups).filter (fun x => x.1 = g) =
            x :: groups.filter fun x => x.1 = g := List.filter_cons_of_pos (decide_eq_true hx)
        rw [if_pos hx, hkeep, List.flatMap_cons, List.filterMap_append]
      · simp only [hx, decide_false, Bool.false_eq_true, if_false, not_false_eq_true,
          List.filter_cons_of_neg, List.nil_append]
  unfold newClusters
  rw [hflat _ hgroup, groupsBy_filter, pathsInScope_filter]
  by_cases hg : scope.contains g
  · simp only [if_pos hg]
    unfold clustersIn
    cases groupFiles g d with
    | nil => rfl
    | cons path rest => rw [List.flatMap_singleton]
  · simp only [if_neg hg]
    rfl

end Groups

section Views

/-- A cluster without the number it is stored under. -/
structure ClusterView where
  name : String
  entrySymbols : String
  fileCount : Nat
  files : List String
  deriving DecidableEq, Repr

def NewCluster.view (k : NewCluster) : ClusterView :=
  ⟨k.name, k.entrySymbols, k.files.length, k.files⟩

def membersOf (id : Nat) (d : Database) : List String :=
  (d.members.filter fun m => m.clusterId == id).map MemberRow.filePath

def viewOf (d : Database) (k : ClusterRow) : ClusterView :=
  ⟨k.name, k.entrySymbols, k.fileCount, membersOf k.id d⟩

def ClusterRow.isOf (g : String) (k : ClusterRow) : Bool := clusterGroup k.name == g

/-- The clusters stored for a top-level group, in the order they are stored in. -/
def clustersOf (g : String) (d : Database) : List ClusterView :=
  (d.clusters.rows.filter (ClusterRow.isOf g)).map (viewOf d)

/-- Members are of clusters that were numbered before. -/
def Enrolled (d : Database) : Prop := ∀ m ∈ d.members, m.clusterId ≤ d.clusters.last

variable {c : PostprocessConfig} {d : Database} {g : String} {scope : List String}

theorem Enrolled.insertCluster (h : Enrolled d) (k : NewCluster) : Enrolled (insertCluster d k) := by
  intro m hm
  rcases List.mem_append.mp hm with hm | hm
  · exact Nat.le_succ_of_le (h m hm)
  · obtain ⟨path, -, rfl⟩ := List.mem_map.mp hm
    exact Nat.le_refl _

theorem insertCluster_viewOf {r : ClusterRow} (hr : r ∈ d.clusters.rows) (k : NewCluster) :
    viewOf (insertCluster d k) r = viewOf d r := by
  have hnone : (k.files.map fun path => (⟨d.clusters.last + 1, path⟩ : MemberRow)).filter
      (fun m => m.clusterId == r.id) = [] := by
    refine List.filter_eq_nil_iff.mpr fun m hm hid => ?_
    obtain ⟨path, -, rfl⟩ := List.mem_map.mp hm
    have hle := d.clusters.bounded r hr
    have heq : d.clusters.last + 1 = r.id := beq_iff_eq.mp hid
    omega
  unfold viewOf membersOf insertCluster
  rw [List.filter_append, hnone, List.append_nil]

theorem insertCluster_newView (h : Enrolled d) (k : NewCluster) :
    viewOf (insertCluster d k) (k.row (d.clusters.last + 1)) = k.view := by
  have hnone : d.members.filter (fun m => m.clusterId == d.clusters.last + 1) = [] := by
    refine List.filter_eq_nil_iff.mpr fun m hm hid => ?_
    have hle := h m hm
    have heq : m.clusterId = d.clusters.last + 1 := beq_iff_eq.mp hid
    omega
  have hall : (k.files.map fun path => (⟨d.clusters.last + 1, path⟩ : MemberRow)).filter
      (fun m => m.clusterId == d.clusters.last + 1) =
        k.files.map fun path => (⟨d.clusters.last + 1, path⟩ : MemberRow) := by
    refine List.filter_eq_self.mpr fun m hm => ?_
    obtain ⟨path, -, rfl⟩ := List.mem_map.mp hm
    exact beq_self_eq_true _
  have hmembers : membersOf (d.clusters.last + 1) (insertCluster d k) = k.files := by
    unfold membersOf insertCluster
    rw [List.filter_append, hnone, List.nil_append, hall, List.map_map]
    exact List.map_id _
  unfold viewOf NewCluster.view
  rw [show (k.row (d.clusters.last + 1)).id = d.clusters.last + 1 from rfl, hmembers]
  rfl

theorem insertCluster_clustersOf (h : Enrolled d) (k : NewCluster) (g : String) :
    clustersOf g (insertCluster d k) =
      clustersOf g d ++ if clusterGroup k.name == g then [k.view] else [] := by
  have hrows : (insertCluster d k).clusters.rows =
      d.clusters.rows ++ [k.row (d.clusters.last + 1)] := rfl
  have hold : (d.clusters.rows.filter (ClusterRow.isOf g)).map (viewOf (insertCluster d k)) =
      (d.clusters.rows.filter (ClusterRow.isOf g)).map (viewOf d) :=
    List.map_congr_left fun r hr => insertCluster_viewOf (List.mem_filter.mp hr).1 k
  unfold clustersOf
  rw [hrows, List.filter_append, List.map_append, hold]
  congr 1
  have hname : (k.row (d.clusters.last + 1)).isOf g = (clusterGroup k.name == g) := rfl
  cases hg : clusterGroup k.name == g with
  | true =>
    rw [hg] at hname
    rw [List.filter_cons_of_pos hname, List.filter_nil, List.map_singleton,
      insertCluster_newView h k]
    rfl
  | false =>
    rw [hg] at hname
    rw [List.filter_cons_of_neg (Bool.eq_false_iff.mp hname)]
    rfl

theorem foldl_insertCluster (h : Enrolled d) (clusters : List NewCluster) (g : String) :
    Enrolled (clusters.foldl insertCluster d) ∧
      clustersOf g (clusters.foldl insertCluster d) = clustersOf g d ++
        (clusters.filter fun k => clusterGroup k.name == g).map NewCluster.view := by
  induction clusters generalizing d with
  | nil => exact ⟨h, (List.append_nil _).symm⟩
  | cons k clusters ih =>
    obtain ⟨henrolled, hviews⟩ := ih (h.insertCluster k)
    refine ⟨henrolled, ?_⟩
    rw [List.foldl_cons, hviews, insertCluster_clustersOf h, List.append_assoc, List.filter_cons]
    congr 1
    split <;> rfl

theorem Enrolled.dropClusters (h : Enrolled d) (scope : List String) :
    Enrolled (dropClusters scope d) := fun m hm => h m (List.mem_filter.mp hm).1

theorem dropClusters_viewOf {r : ClusterRow} (hr : r ∈ d.clusters.rows)
    (hscope : scope.contains (clusterGroup r.name) = false) :
    viewOf (dropClusters scope d) r = viewOf d r := by
  unfold viewOf membersOf dropClusters
  rw [List.filter_filter]
  congr 2
  refine List.filter_congr fun m _ => ?_
  cases hid : m.clusterId == r.id with
  | false => rfl
  | true =>
    have hnone : (d.clusters.rows.any fun k =>
        scope.contains (clusterGroup k.name) && k.id == m.clusterId) = false := by
      rw [List.any_eq_false]
      intro k hk hin
      rw [Bool.and_eq_true_iff, beq_iff_eq] at hin
      have heq := d.clusters.eq_of_number hk hr (hin.2.trans (beq_iff_eq.mp hid))
      rw [heq, hscope] at hin
      exact Bool.noConfusion hin.1
    rw [hnone]
    rfl

theorem dropClusters_clustersOf (scope : List String) (d : Database) (g : String) :
    clustersOf g (dropClusters scope d) = if scope.contains g then [] else clustersOf g d := by
  have hrows : (dropClusters scope d).clusters.rows =
      d.clusters.rows.filter fun k => !scope.contains (clusterGroup k.name) := rfl
  unfold clustersOf
  rw [hrows, List.filter_filter]
  split
  · rename_i hg
    have hnone : (d.clusters.rows.filter fun k =>
        k.isOf g && !scope.contains (clusterGroup k.name)) = [] := by
      refine List.filter_eq_nil_iff.mpr fun k _ hk => ?_
      rw [Bool.and_eq_true_iff] at hk
      rw [beq_iff_eq.mp hk.1, hg] at hk
      exact Bool.noConfusion hk.2
    rw [hnone]
    rfl
  · rename_i hg
    have hsame : (d.clusters.rows.filter fun k =>
        k.isOf g && !scope.contains (clusterGroup k.name)) =
          d.clusters.rows.filter (ClusterRow.isOf g) := by
      refine List.filter_congr fun k _ => ?_
      cases hk : k.isOf g with
      | false => rfl
      | true =>
        rw [beq_iff_eq.mp hk, Bool.eq_false_iff.mpr hg]
        rfl
    rw [hsame]
    refine List.map_congr_left fun k hk => ?_
    obtain ⟨hmem, hof⟩ := List.mem_filter.mp hk
    refine dropClusters_viewOf hmem ?_
    rw [beq_iff_eq.mp hof]
    exact Bool.eq_false_iff.mpr hg

/-- The clusters of a group in scope are formed anew, all others are kept. -/
theorem detectClustersFor_clustersOf (h : Enrolled d) (c : PostprocessConfig)
    (scope : List String) (g : String) :
    clustersOf g (detectClustersFor c scope d) =
      if scope.contains g then (clustersIn c g d).map NewCluster.view else clustersOf g d := by
  unfold detectClustersFor
  rw [(foldl_insertCluster (h.dropClusters scope) _ g).2, dropClusters_clustersOf,
    newClusters_filter]
  split
  · rw [List.nil_append]
  · rw [List.map_nil, List.append_nil]

theorem Enrolled.detectClustersFor (h : Enrolled d) (c : PostprocessConfig)
    (scope : List String) : Enrolled (detectClustersFor c scope d) :=
  (foldl_insertCluster (h.dropClusters scope) _ "").1

theorem Enrolled.computeFileKindsFor (h : Enrolled d) (c : PostprocessConfig)
    (paths : List String) : Enrolled (computeFileKindsFor c paths d) := h

theorem mem_groupFiles {path : String} :
    path ∈ groupFiles g d ↔ d.hasFile path = true ∧ topGroup path = g := by
  simp [groupFiles, Database.filesByPath, Database.hasFile, Database.file?, List.find?_isSome]

/-- Detection over all groups forms the clusters of every group anew. -/
theorem detectClusters_clustersOf (h : Enrolled d) (c : PostprocessConfig) (g : String) :
    clustersOf g (detectClusters c d) = (clustersIn c g d).map NewCluster.view := by
  unfold detectClusters
  rw [detectClustersFor_clustersOf h]
  split
  · rfl
  · rename_i hg
    have hmiss : g ∉ (d.files.rows.map fun r => topGroup r.path) ++
        d.clusters.rows.map fun k => clusterGroup k.name := fun hmem =>
      hg (List.contains_iff_mem.mpr (mem_sortedSet.mpr hmem))
    rw [List.mem_append, not_or] at hmiss
    have hfiles : groupFiles g d = [] := by
      refine List.eq_nil_iff_forall_not_mem.mpr fun path hpath => hmiss.1 ?_
      obtain ⟨hfile, hgroup⟩ := mem_groupFiles.mp hpath
      obtain ⟨r, hr, hpath⟩ : ∃ r ∈ d.files.rows, r.path = path := by
        simpa [Database.hasFile, Database.file?, List.find?_isSome] using hfile
      exact List.mem_map.mpr ⟨r, hr, by rw [hpath, hgroup]⟩
    have hclusters : d.clusters.rows.filter (ClusterRow.isOf g) = [] := by
      refine List.filter_eq_nil_iff.mpr fun k hk hof => hmiss.2 ?_
      exact List.mem_map.mpr ⟨k, hk, beq_iff_eq.mp hof⟩
    unfold clustersOf clustersIn
    rw [hclusters, hfiles]
    rfl

end Views

end RemyCC.Index
