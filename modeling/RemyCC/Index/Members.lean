import Mathlib.Data.List.Nodup
import RemyCC.Index.Groups

/-!
# Names and members of clusters

Clusters have distinct names, and their members are stored files of their own
top-level group. Both survive the loss of files as long as the clusters of the
groups that lost some are formed anew.
-/

namespace RemyCC.Index

open Relational Text

section Names

variable {c : PostprocessConfig} {scope : List String} {d : Database}

theorem groupsBy_keys_nodup {α : Type} (key : α → String) (rows : List α) :
    ((groupsBy key rows).map Prod.fst).Nodup := by
  refine List.nodup_iff_count_le_one.mpr fun k => ?_
  have hcount : ((groupsBy key rows).map Prod.fst).count k =
      ((groupsBy key rows).filter fun x => x.1 = k).length := by
    rw [List.count, List.countP_map, List.countP_eq_length_filter]
    exact congrArg List.length (List.filter_congr fun x _ => rfl)
  rw [hcount, groupsBy_filter]
  split <;> simp

theorem finalGroups_nodup (c : PostprocessConfig) (group : String × List String) :
    ((finalGroups c group).map Prod.fst).Nodup := by
  unfold finalGroups
  split
  · exact List.nodup_nil
  · split
    · exact groupsBy_keys_nodup _ _
    · exact List.nodup_singleton _

theorem topGroup_of_group {paths : List String} {x : String × List String}
    (hx : x ∈ groupsBy topGroup paths) : ∀ path ∈ x.2, topGroup path = x.1 := by
  intro path hpath
  rw [groupsBy_rows hx] at hpath
  exact of_decide_eq_true (List.mem_filter.mp hpath).2

theorem filterMap_names_sublist (c : PostprocessConfig) (d : Database)
    (groups : List (String × List String)) :
    ((groups.filterMap (newCluster c d)).map NewCluster.name).Sublist (groups.map Prod.fst) := by
  induction groups with
  | nil => exact .slnil
  | cons x groups ih =>
    cases hx : newCluster c d x with
    | none =>
      rw [List.filterMap_cons_none hx]
      exact ih.cons x.1
    | some k =>
      rw [List.filterMap_cons_some hx, List.map_cons, List.map_cons, newCluster_name hx]
      exact ih.cons_cons x.1

/-- The names of different groups differ in their first part, and those of one
group are the keys of its subgroups. -/
theorem newClusters_nodup (c : PostprocessConfig) (scope : List String) (d : Database) :
    ((newClusters c scope d).map NewCluster.name).Nodup := by
  refine (filterMap_names_sublist c d _).nodup ?_
  rw [List.map_flatMap, List.nodup_flatMap]
  refine ⟨fun x _ => finalGroups_nodup c x, ?_⟩
  have hkeys := groupsBy_keys_nodup topGroup (pathsInScope scope d)
  rw [List.nodup_iff_pairwise_ne, List.pairwise_map] at hkeys
  refine hkeys.imp_of_mem fun {x y} hx hy hne name hname hname' => hne ?_
  obtain ⟨u, hu, rfl⟩ := List.mem_map.mp hname
  obtain ⟨v, hv, heq⟩ := List.mem_map.mp hname'
  rw [← finalGroups_group (topGroup_of_group hx) hu, ← finalGroups_group (topGroup_of_group hy) hv,
    heq]

theorem newCluster_files {x : String × List String} {k : NewCluster}
    (h : newCluster c d x = some k) : k.files = x.2 := by
  unfold newCluster at h
  split at h
  · cases h
  · split at h
    · cases h
    · cases h
      rfl

theorem finalGroups_files {group x : String × List String} (hx : x ∈ finalGroups c group) :
    ∀ path ∈ x.2, path ∈ group.2 := by
  unfold finalGroups at hx
  split at hx
  · exact absurd hx List.not_mem_nil
  · split at hx
    · intro path hpath
      rw [groupsBy_rows hx] at hpath
      exact (List.mem_filter.mp hpath).1
    · rw [List.mem_singleton.mp hx]
      exact fun _ hpath => hpath

/-- A formed cluster is of a group in scope, and so are its files. -/
theorem mem_newClusters {k : NewCluster} (hk : k ∈ newClusters c scope d) :
    scope.contains (clusterGroup k.name) = true ∧
      ∀ path ∈ k.files, d.hasFile path = true ∧ clusterGroup k.name = topGroup path := by
  obtain ⟨x, hx, hnew⟩ := List.mem_filterMap.mp hk
  obtain ⟨group, hgroup, hx⟩ := List.mem_flatMap.mp hx
  have htop := topGroup_of_group hgroup
  rw [newCluster_name hnew, finalGroups_group htop hx, newCluster_files hnew]
  refine ⟨?_, fun path hpath => ?_⟩
  · obtain ⟨path, hpath, hkey⟩ := groupsBy_key hgroup
    rw [← hkey]
    exact (List.mem_filter.mp hpath).2
  · have hfile := finalGroups_files hx path hpath
    refine ⟨?_, (htop path hfile).symm⟩
    have hmem : path ∈ groupFiles group.1 d := by
      rw [groupsBy_rows hgroup] at hfile
      obtain ⟨hscope, hkey⟩ := List.mem_filter.mp hfile
      exact List.mem_filter.mpr ⟨(List.mem_filter.mp hscope).1,
        beq_iff_eq.mpr (of_decide_eq_true hkey)⟩
    exact (mem_groupFiles.mp hmem).1

end Names

section Membership

/-- The members of clusters, of which those in some groups may have lost their files. -/
structure Clustered (lost : List String) (d : Database) : Prop where
  names : (d.clusters.rows.map ClusterRow.name).Nodup
  members : ∀ m ∈ d.members, ∃ k ∈ d.clusters.rows, k.id = m.clusterId ∧
    clusterGroup k.name = topGroup m.filePath ∧
    (d.hasFile m.filePath = true ∨ lost.contains (topGroup m.filePath) = true)

variable {c : PostprocessConfig} {scope : List String} {d d' : Database}

theorem Clustered.empty : Clustered [] .empty :=
  ⟨List.nodup_nil, fun _ hm => absurd hm List.not_mem_nil⟩

theorem Clustered.dropClusters (h : Clustered scope d) : Clustered [] (dropClusters scope d) where
  names := h.names.sublist (List.filter_sublist.map _)
  members m hm := by
    obtain ⟨hm, hkept⟩ := List.mem_filter.mp hm
    obtain ⟨k, hk, hid, hgroup, hfile⟩ := h.members m hm
    have hscope : scope.contains (clusterGroup k.name) = false := by
      rw [Bool.not_eq_true', List.any_eq_false] at hkept
      have hout := hkept k hk
      rw [Bool.and_eq_true, beq_iff_eq, not_and] at hout
      exact Bool.eq_false_iff.mpr fun hin => hout hin hid
    refine ⟨k, List.mem_filter.mpr ⟨hk, (Bool.not_eq_true' _).mpr hscope⟩, hid, hgroup, .inl ?_⟩
    rw [hgroup] at hscope
    exact hfile.resolve_right (Bool.eq_false_iff.mp hscope)

theorem Clustered.insertCluster (h : Clustered [] d) {k : NewCluster}
    (hname : k.name ∉ d.clusters.rows.map ClusterRow.name)
    (hfiles : ∀ path ∈ k.files, d.hasFile path = true ∧ clusterGroup k.name = topGroup path) :
    Clustered [] (insertCluster d k) where
  names := by
    have hrows : (Index.insertCluster d k).clusters.rows.map ClusterRow.name =
        d.clusters.rows.map ClusterRow.name ++ [k.name] := List.map_append
    rw [hrows]
    exact List.nodup_append.mpr ⟨h.names, List.nodup_singleton _, fun name hn name' hn' heq =>
      hname (List.mem_singleton.mp hn' ▸ heq ▸ hn)⟩
  members m hm := by
    rcases List.mem_append.mp hm with hm | hm
    · obtain ⟨k', hk', hrest⟩ := h.members m hm
      exact ⟨k', List.mem_append_left _ hk', hrest⟩
    · obtain ⟨path, hpath, rfl⟩ := List.mem_map.mp hm
      exact ⟨k.row (d.clusters.last + 1), List.mem_append_right _ (List.mem_singleton_self _), rfl,
        (hfiles path hpath).2, .inl (hfiles path hpath).1⟩

theorem foldl_insertCluster_names (clusters : List NewCluster) (d : Database) :
    (clusters.foldl insertCluster d).clusters.rows.map ClusterRow.name =
      d.clusters.rows.map ClusterRow.name ++ clusters.map NewCluster.name := by
  induction clusters generalizing d with
  | nil => exact (List.append_nil _).symm
  | cons k clusters ih =>
    rw [List.foldl_cons, ih, insertCluster, Numbered.insert_rows, List.map_append, List.append_assoc]
    rfl

theorem Clustered.insertClusters (h : Clustered [] d) {clusters : List NewCluster}
    (hnames : (d.clusters.rows.map ClusterRow.name ++ clusters.map NewCluster.name).Nodup)
    (hfiles : ∀ k ∈ clusters, ∀ path ∈ k.files,
      d.hasFile path = true ∧ clusterGroup k.name = topGroup path) :
    Clustered [] (clusters.foldl Index.insertCluster d) := by
  induction clusters generalizing d with
  | nil => exact h
  | cons k clusters ih =>
    have hfresh : k.name ∉ d.clusters.rows.map ClusterRow.name := fun hmem =>
      (List.nodup_append.mp hnames).2.2 _ hmem _ List.mem_cons_self rfl
    refine ih (h.insertCluster hfresh (hfiles k List.mem_cons_self)) ?_
      fun k' hk' => hfiles k' (List.mem_cons_of_mem k hk')
    have hrows : (Index.insertCluster d k).clusters.rows.map ClusterRow.name =
        d.clusters.rows.map ClusterRow.name ++ [k.name] := List.map_append
    rw [hrows, List.append_assoc]
    exact hnames

theorem Clustered.detectClustersFor (h : Clustered scope d) (c : PostprocessConfig) :
    Clustered [] (detectClustersFor c scope d) := by
  refine h.dropClusters.insertClusters ?_ fun k hk => (mem_newClusters hk).2
  refine List.nodup_append.mpr ⟨h.dropClusters.names, newClusters_nodup c scope d, ?_⟩
  rintro _ hold _ hnew rfl
  obtain ⟨r, hr, hname⟩ := List.mem_map.mp hold
  obtain ⟨k, hk, hname'⟩ := List.mem_map.mp hnew
  have hin := (mem_newClusters hk).1
  have hout : (!scope.contains (clusterGroup r.name)) = true := (List.mem_filter.mp hr).2
  rw [hname'] at hin
  rw [hname, hin] at hout
  exact Bool.noConfusion hout

theorem Clustered.of_tables {lost lost' : List String} (h : Clustered lost d)
    (hclusters : d'.clusters = d.clusters) (hmembers : d'.members = d.members)
    (hfiles : ∀ path, d.hasFile path = true ∨ lost.contains (topGroup path) = true →
      d'.hasFile path = true ∨ lost'.contains (topGroup path) = true) : Clustered lost' d' where
  names := hclusters ▸ h.names
  members m hm := by
    rw [hmembers] at hm
    obtain ⟨k, hk, hid, hgroup, hfile⟩ := h.members m hm
    exact ⟨k, hclusters ▸ hk, hid, hgroup, hfiles _ hfile⟩

end Membership

end RemyCC.Index
