import RemyCC.Index.Frames
import RemyCC.Index.Members

/-!
# Clusters as blocks of a partition

A file can be in one cluster only, that of its owner: its top-level group, or in
a group that is too large the part of the group that it lies in. Detection
stores the blocks of two files and more that are dense enough.
-/

namespace RemyCC.Index

open Relational Text

variable {c : PostprocessConfig} {d d' : Database} {scope : List String} {g path : String}

section Owners

def Database.paths (d : Database) : List String := d.filesByPath.map FileRow.path

theorem nodup_paths (d : Database) : d.paths.Nodup := by
  have hperm : List.Perm d.paths (d.files.rows.map FileRow.path) := (orderBy_perm _ _).map _
  exact hperm.nodup_iff.mpr d.files.distinct

/-- The name of the one cluster that a file can be in. -/
def owner (c : PostprocessConfig) (d : Database) (path : String) : String :=
  if c.clusterMaxSize < (groupFiles (topGroup path) d).length then subGroup (topGroup path) path
  else topGroup path

/-- The files with one owner. -/
def block (c : PostprocessConfig) (d : Database) (name : String) : List String :=
  d.paths.filter fun path => owner c d path == name

/-- Both shapes of names lead back to the group. -/
theorem clusterGroup_owner (c : PostprocessConfig) (d : Database) (path : String) :
    clusterGroup (owner c d path) = topGroup path := by
  unfold owner
  split
  · exact clusterGroup_subGroup path
  · exact clusterGroup_topGroup path

theorem block_eq (c : PostprocessConfig) (d : Database) (name : String) :
    block c d name = (groupFiles (clusterGroup name) d).filter fun path => owner c d path == name := by
  unfold block groupFiles Database.paths
  rw [List.filter_filter]
  refine List.filter_congr fun path _ => ?_
  cases howner : owner c d path == name with
  | false => rfl
  | true =>
    rw [← beq_iff_eq.mp howner, clusterGroup_owner]
    simp

theorem block_sublist (c : PostprocessConfig) (d : Database) (name : String) :
    (block c d name).Sublist (groupFiles (clusterGroup name) d) := by
  rw [block_eq]
  exact List.filter_sublist

theorem topGroup_of_block {name : String} (h : path ∈ block c d name) :
    topGroup path = clusterGroup name := by
  rw [← clusterGroup_owner c d path, beq_iff_eq.mp (List.mem_filter.mp h).2]

/-- A group that is not too large has one owner. -/
theorem block_whole (h : (groupFiles (clusterGroup g) d).length ≤ c.clusterMaxSize)
    (hpath : path ∈ block c d g) : g = clusterGroup g ∧ block c d g = groupFiles (clusterGroup g) d := by
  have howner : ∀ p, topGroup p = clusterGroup g → owner c d p = clusterGroup g := fun p hp => by
    rw [owner, hp, if_neg (Nat.not_lt.mpr h)]
  have hname : g = clusterGroup g := by
    rw [← howner path (topGroup_of_block hpath), beq_iff_eq.mp (List.mem_filter.mp hpath).2]
  refine ⟨hname, ?_⟩
  rw [block_eq]
  refine List.filter_eq_self.mpr fun p hp => ?_
  rw [howner p (mem_groupFiles.mp hp).2, ← hname]
  exact beq_self_eq_true g

/-- A group that is too large is split by the second segments of its paths. -/
theorem block_split {name : String} (h : c.clusterMaxSize < (groupFiles (clusterGroup name) d).length) :
    block c d name = (groupFiles (clusterGroup name) d).filter fun path =>
      subGroup (clusterGroup name) path == name := by
  rw [block_eq]
  refine List.filter_congr fun p hp => ?_
  rw [owner, (mem_groupFiles.mp hp).2, if_pos h]

theorem mem_finalGroups {x : String × List String} : x ∈ finalGroups c (g, groupFiles g d) ↔
    2 ≤ (groupFiles g d).length ∧
      ∃ path ∈ groupFiles g d, x = (owner c d path, block c d (owner c d path)) := by
  unfold finalGroups
  split
  · next hsize => simp [Nat.not_le.mpr hsize]
  · next hsize =>
    have htwo : 2 ≤ (groupFiles g d).length := Nat.not_lt.mp hsize
    have hgroup : ∀ p ∈ groupFiles g d, topGroup p = g := fun p hp => (mem_groupFiles.mp hp).2
    split
    · next hlarge =>
      have howner : ∀ p ∈ groupFiles g d, owner c d p = subGroup g p := fun p hp => by
        rw [owner, hgroup p hp, if_pos hlarge]
      have hblock : ∀ p ∈ groupFiles g d, block c d (subGroup g p) =
          (groupFiles g d).filter fun q => subGroup g q = subGroup g p := fun p hp => by
        have hback : clusterGroup (subGroup g p) = g := by
          rw [← howner p hp, clusterGroup_owner, hgroup p hp]
        rw [block_split (by rwa [hback]), hback]
        exact List.filter_congr fun q _ => beq_eq_decide _ _
      constructor
      · intro hx
        obtain ⟨p, hp, hkey⟩ := groupsBy_key hx
        refine ⟨htwo, p, hp, Prod.ext ?_ ?_⟩
        · rw [howner p hp, hkey]
        · rw [howner p hp, hblock p hp, hkey, groupsBy_rows hx]
      · rintro ⟨-, p, hp, rfl⟩
        have hkey : subGroup g p ∈ (groupsBy (subGroup g) (groupFiles g d)).map Prod.fst :=
          mem_keys_groupsBy.mpr (List.mem_map_of_mem hp)
        obtain ⟨y, hy, hname⟩ := List.mem_map.mp hkey
        have hyx : y = (owner c d p, block c d (owner c d p)) := Prod.ext
          (by rw [howner p hp, hname])
          (by rw [howner p hp, hblock p hp, ← hname, groupsBy_rows hy])
        rwa [← hyx]
    · next hsmall =>
      have howner : ∀ p, topGroup p = g → owner c d p = g := fun p hp => by
        rw [owner, hp, if_neg hsmall]
      have hwhole : ∀ p ∈ groupFiles g d, (owner c d p, block c d (owner c d p)) =
          (g, groupFiles g d) := fun p hp => by
        have hname := howner p (hgroup p hp)
        have hback : clusterGroup g = g := by
          rw [← hgroup p hp]
          exact clusterGroup_topGroup p
        have hmem : p ∈ block c d g := by
          rw [block_eq, hback]
          exact List.mem_filter.mpr ⟨hp, beq_iff_eq.mpr hname⟩
        have hblock := (block_whole (by rw [hback]; exact Nat.not_lt.mp hsmall) hmem).2
        rw [hname, hblock, hback]
      rw [List.mem_singleton]
      constructor
      · rintro rfl
        obtain ⟨p, hp⟩ := List.exists_mem_of_length_pos (Nat.lt_of_lt_of_le Nat.two_pos htwo)
        exact ⟨htwo, p, hp, (hwhole p hp).symm⟩
      · rintro ⟨-, p, hp, rfl⟩
        exact hwhole p hp

theorem newCluster_spec {name : String} {files : List String} {k : NewCluster} :
    newCluster c d (name, files) = some k ↔
      2 ≤ files.length ∧
      c.clusterDensityThreshold ≤ Rounding.quotient (internalEdgeCount files d) files.length ∧
      k = ⟨name, Json.dumpsDefault (.arr ((entrySymbols c files d).map .str)), files⟩ := by
  unfold newCluster
  split
  · next hsize => simp [Nat.not_le.mpr hsize]
  · next hsize =>
    split
    · next hsparse => simp [Rat.not_le.mpr hsparse]
    · next hdense => simp [Nat.not_lt.mp hsize, Rat.not_lt.mp hdense, eq_comm]

/-- Detection forms a cluster for each dense block of files in scope. -/
theorem mem_newClusters_iff {k : NewCluster} : k ∈ newClusters c scope d ↔
    ∃ path ∈ pathsInScope scope d,
      newCluster c d (owner c d path, block c d (owner c d path)) = some k := by
  have hgroups : ∀ path ∈ pathsInScope scope d, (pathsInScope scope d).filter
      (fun p => topGroup p = topGroup path) = groupFiles (topGroup path) d := fun path hpath => by
    rw [pathsInScope_filter, if_pos (List.mem_filter.mp hpath).2]
  unfold newClusters
  rw [List.mem_filterMap]
  constructor
  · rintro ⟨x, hx, hnew⟩
    obtain ⟨group, hgroup, hx⟩ := List.mem_flatMap.mp hx
    obtain ⟨p, hp, hkey⟩ := groupsBy_key hgroup
    have hgroup : group = (topGroup p, groupFiles (topGroup p) d) := Prod.ext hkey.symm
      (by rw [groupsBy_rows hgroup, ← hkey, hgroups p hp])
    rw [hgroup, mem_finalGroups] at hx
    obtain ⟨-, path, hpath, rfl⟩ := hx
    obtain ⟨hfile, htop⟩ := List.mem_filter.mp hpath
    refine ⟨path, List.mem_filter.mpr ⟨hfile, ?_⟩, hnew⟩
    rw [beq_iff_eq.mp htop]
    exact (List.mem_filter.mp hp).2
  · rintro ⟨path, hpath, hnew⟩
    have hkey : topGroup path ∈ (groupsBy topGroup (pathsInScope scope d)).map Prod.fst :=
      mem_keys_groupsBy.mpr (List.mem_map_of_mem hpath)
    obtain ⟨group, hgroup, hname⟩ := List.mem_map.mp hkey
    have hgroup' : group = (topGroup path, groupFiles (topGroup path) d) := Prod.ext hname
      (by rw [groupsBy_rows hgroup, hname, hgroups path hpath])
    refine ⟨_, List.mem_flatMap.mpr ⟨group, hgroup, ?_⟩, hnew⟩
    have hmem : path ∈ groupFiles (topGroup path) d :=
      List.mem_filter.mpr ⟨(List.mem_filter.mp hpath).1, beq_self_eq_true _⟩
    have htwo : 2 ≤ (groupFiles (topGroup path) d).length := by
      have hsub := (block_sublist c d (owner c d path)).length_le
      rw [clusterGroup_owner] at hsub
      exact (newCluster_spec.mp hnew).1.trans hsub
    rw [hgroup', mem_finalGroups]
    exact ⟨htwo, path, hmem, rfl⟩

theorem newClusters_block {k : NewCluster} (hk : k ∈ newClusters c scope d) :
    k.files = block c d k.name ∧ 2 ≤ k.files.length ∧
      c.clusterDensityThreshold ≤
        Rounding.quotient (internalEdgeCount k.files d) k.files.length := by
  obtain ⟨path, -, hnew⟩ := mem_newClusters_iff.mp hk
  obtain ⟨hsize, hdense, rfl⟩ := newCluster_spec.mp hnew
  exact ⟨rfl, hsize, hdense⟩

/-- No file is in two of the clusters that a detection forms. -/
theorem nodup_newFiles (c : PostprocessConfig) (scope : List String) (d : Database) :
    ((newClusters c scope d).flatMap NewCluster.files).Nodup := by
  have hnames := newClusters_nodup c scope d
  rw [List.nodup_iff_pairwise_ne, List.pairwise_map] at hnames
  refine List.nodup_flatMap.mpr ⟨fun k hk => ?_, ?_⟩
  · rw [(newClusters_block hk).1]
    exact (nodup_paths d).filter _
  · refine hnames.imp_of_mem fun {k k'} hk hk' hne path hpath hpath' => hne ?_
    rw [(newClusters_block hk).1] at hpath
    rw [(newClusters_block hk').1] at hpath'
    exact (beq_iff_eq.mp (List.mem_filter.mp hpath).2).symm.trans
      (beq_iff_eq.mp (List.mem_filter.mp hpath').2)

end Owners

section Stored

/-- Every member row is of a stored cluster. -/
def Referential (d : Database) : Prop := ∀ m ∈ d.members, ∃ k ∈ d.clusters.rows, k.id = m.clusterId

instance (d : Database) : Decidable (Referential d) :=
  inferInstanceAs (Decidable (∀ m ∈ d.members, _))

theorem Clustered.referential {lost : List String} (h : Clustered lost d) : Referential d :=
  fun m hm => by
    obtain ⟨k, hk, hid, -⟩ := h.members m hm
    exact ⟨k, hk, hid⟩

theorem Referential.enrolled (h : Referential d) : Enrolled d := fun m hm => by
  obtain ⟨k, hk, hid⟩ := h m hm
  exact hid ▸ d.clusters.bounded k hk

def views (d : Database) : List ClusterView := d.clusters.rows.map (viewOf d)

theorem insertCluster_views (h : Enrolled d) (k : NewCluster) :
    views (insertCluster d k) = views d ++ [k.view] := by
  unfold views
  rw [insertCluster, Numbered.insert_rows, List.map_append, List.map_singleton]
  exact congrArg₂ (· ++ ·) (List.map_congr_left fun r hr => insertCluster_viewOf hr k)
    (congrArg (fun v => [v]) (insertCluster_newView h k))

theorem foldl_insertCluster_views (h : Enrolled d) (clusters : List NewCluster) :
    views (clusters.foldl insertCluster d) = views d ++ clusters.map NewCluster.view := by
  induction clusters generalizing d with
  | nil => exact (List.append_nil _).symm
  | cons k clusters ih =>
    rw [List.foldl_cons, ih (h.insertCluster k), insertCluster_views h, List.append_assoc]
    rfl

theorem foldl_insertCluster_paths (clusters : List NewCluster) (d : Database) :
    (clusters.foldl insertCluster d).members.map MemberRow.filePath =
      d.members.map MemberRow.filePath ++ clusters.flatMap NewCluster.files := by
  induction clusters generalizing d with
  | nil => exact (List.append_nil _).symm
  | cons k clusters ih =>
    have hstep : (insertCluster d k).members.map MemberRow.filePath =
        d.members.map MemberRow.filePath ++ k.files := by
      rw [insertCluster, List.map_append, List.map_map]
      exact congrArg (_ ++ ·) (List.map_id _)
    rw [List.foldl_cons, ih, hstep, List.append_assoc, List.flatMap_cons]

theorem Referential.insertCluster (h : Referential d) (k : NewCluster) :
    Referential (insertCluster d k) := by
  intro m hm
  rcases List.mem_append.mp hm with hm | hm
  · obtain ⟨r, hr, hid⟩ := h m hm
    exact ⟨r, List.mem_append_left _ hr, hid⟩
  · obtain ⟨path, -, rfl⟩ := List.mem_map.mp hm
    exact ⟨k.row (d.clusters.last + 1), List.mem_append_right _ (List.mem_singleton_self _), rfl⟩

theorem Referential.dropClusters (h : Referential d) (scope : List String) :
    Referential (dropClusters scope d) := by
  intro m hm
  obtain ⟨hm, hkept⟩ := List.mem_filter.mp hm
  obtain ⟨k, hk, hid⟩ := h m hm
  rw [Bool.not_eq_true', List.any_eq_false] at hkept
  refine ⟨k, List.mem_filter.mpr ⟨hk, ?_⟩, hid⟩
  have hout := hkept k hk
  rw [hid, beq_self_eq_true, Bool.and_true] at hout
  exact (Bool.not_eq_true' _).mpr (Bool.eq_false_iff.mpr hout)

theorem Referential.detectClustersFor (h : Referential d) (c : PostprocessConfig)
    (scope : List String) : Referential (detectClustersFor c scope d) := by
  unfold Index.detectClustersFor
  generalize newClusters c scope d = clusters
  have hdrop := h.dropClusters scope
  generalize Index.dropClusters scope d = d' at hdrop
  induction clusters generalizing d' with
  | nil => exact hdrop
  | cons k clusters ih => exact ih _ (hdrop.insertCluster k)

theorem topGroup_mem_allGroups (h : path ∈ d.paths) : (allGroups d).contains (topGroup path) = true := by
  obtain ⟨r, hr, rfl⟩ := List.mem_map.mp h
  refine List.contains_iff_mem.mpr (mem_sortedSet.mpr (List.mem_append_left _ ?_))
  exact List.mem_map_of_mem (f := fun r : FileRow => topGroup r.path) (mem_orderBy.mp hr)

theorem clusterGroup_mem_allGroups {k : ClusterRow} (hk : k ∈ d.clusters.rows) :
    (allGroups d).contains (clusterGroup k.name) = true :=
  List.contains_iff_mem.mpr (mem_sortedSet.mpr (List.mem_append_right _
    (List.mem_map_of_mem (f := fun k : ClusterRow => clusterGroup k.name) hk)))

theorem pathsInScope_allGroups (d : Database) : pathsInScope (allGroups d) d = d.paths :=
  List.filter_eq_self.mpr fun _ hpath => topGroup_mem_allGroups hpath

/-- Nothing is left of the clusters before all groups are formed anew. -/
theorem dropClusters_allGroups (h : Referential d) :
    (dropClusters (allGroups d) d).clusters.rows = [] ∧
      (dropClusters (allGroups d) d).members = [] := by
  constructor
  · refine List.filter_eq_nil_iff.mpr fun k hk hkept => ?_
    have hout : (!(allGroups d).contains (clusterGroup k.name)) = true := hkept
    rw [clusterGroup_mem_allGroups hk] at hout
    exact Bool.noConfusion hout
  · refine List.filter_eq_nil_iff.mpr fun m hm hkept => ?_
    obtain ⟨k, hk, hid⟩ := h m hm
    rw [Bool.not_eq_true', List.any_eq_false] at hkept
    refine hkept k hk ?_
    rw [clusterGroup_mem_allGroups hk, hid, beq_self_eq_true]
    rfl

theorem detectClusters_views (h : Referential d) (c : PostprocessConfig) :
    views (detectClusters c d) = (newClusters c (allGroups d) d).map NewCluster.view := by
  unfold detectClusters detectClustersFor
  rw [foldl_insertCluster_views (h.dropClusters _).enrolled, views, (dropClusters_allGroups h).1]
  rfl

theorem detectClusters_paths (h : Referential d) (c : PostprocessConfig) :
    (detectClusters c d).members.map MemberRow.filePath =
      (newClusters c (allGroups d) d).flatMap NewCluster.files := by
  unfold detectClusters detectClustersFor
  rw [foldl_insertCluster_paths, (dropClusters_allGroups h).2]
  rfl

end Stored

section Detected

/-- What a detection makes of the files and edges. -/
structure Partition (c : PostprocessConfig) (d : Database) : Prop where
  referential : Referential d
  names : (d.clusters.rows.map ClusterRow.name).Nodup
  single : (d.members.map MemberRow.filePath).Nodup
  size : ∀ k ∈ d.clusters.rows, 2 ≤ (membersOf k.id d).length
  group : ∀ k ∈ d.clusters.rows, ∀ path ∈ membersOf k.id d,
    d.hasFile path = true ∧ topGroup path = clusterGroup k.name
  fileCount : ∀ k ∈ d.clusters.rows, k.fileCount = (membersOf k.id d).length
  dense : ∀ k ∈ d.clusters.rows, c.clusterDensityThreshold ≤
    Rounding.quotient (internalEdgeCount (membersOf k.id d) d) (membersOf k.id d).length
  whole : ∀ k ∈ d.clusters.rows, (groupFiles (clusterGroup k.name) d).length ≤ c.clusterMaxSize →
    k.name = clusterGroup k.name ∧ membersOf k.id d = groupFiles (clusterGroup k.name) d
  split : ∀ k ∈ d.clusters.rows, c.clusterMaxSize < (groupFiles (clusterGroup k.name) d).length →
    membersOf k.id d = (groupFiles (clusterGroup k.name) d).filter fun path =>
      subGroup (clusterGroup k.name) path == k.name
  complete : ∀ path ∈ d.paths, 2 ≤ (block c d (owner c d path)).length →
    c.clusterDensityThreshold ≤ Rounding.quotient (internalEdgeCount (block c d (owner c d path)) d)
      (block c d (owner c d path)).length →
    ∃ k ∈ d.clusters.rows, k.name = owner c d path ∧ membersOf k.id d = block c d (owner c d path)

theorem groupFiles_of_files (hfiles : d'.files = d.files) (g : String) :
    groupFiles g d' = groupFiles g d := by
  unfold groupFiles Database.filesByPath
  rw [hfiles]

theorem owner_of_files (hfiles : d'.files = d.files) : owner c d' = owner c d := by
  funext path
  unfold owner
  rw [groupFiles_of_files hfiles]

theorem block_of_files (hfiles : d'.files = d.files) (name : String) :
    block c d' name = block c d name := by
  unfold block Database.paths Database.filesByPath
  rw [owner_of_files hfiles, hfiles]

theorem internalEdgeCount_of_edges (hedges : d'.edges = d.edges) (files : List String) :
    internalEdgeCount files d' = internalEdgeCount files d := by
  unfold internalEdgeCount
  rw [hedges]

/-- The partition, read off the clusters that were formed. -/
theorem partition_of_views (hfiles : d'.files = d.files) (hedges : d'.edges = d.edges)
    (href : Referential d') (hviews : views d' = (newClusters c (allGroups d) d).map NewCluster.view)
    (hpaths : d'.members.map MemberRow.filePath =
      (newClusters c (allGroups d) d).flatMap NewCluster.files) : Partition c d' := by
  have hformed : ∀ k ∈ d'.clusters.rows, ∃ n ∈ newClusters c (allGroups d) d,
      n.name = k.name ∧ n.files.length = k.fileCount ∧ n.files = membersOf k.id d' := by
    intro k hk
    have hview : viewOf d' k ∈ views d' := List.mem_map_of_mem hk
    rw [hviews] at hview
    obtain ⟨n, hn, heq⟩ := List.mem_map.mp hview
    have hfields := ClusterView.mk.inj heq
    exact ⟨n, hn, hfields.1, hfields.2.2.1, hfields.2.2.2⟩
  have hblock : ∀ k ∈ d'.clusters.rows, membersOf k.id d' = block c d' k.name := by
    intro k hk
    obtain ⟨n, hn, hname, -, hmembers⟩ := hformed k hk
    rw [← hmembers, (newClusters_block hn).1, hname, block_of_files hfiles]
  have hsize : ∀ k ∈ d'.clusters.rows, 2 ≤ (membersOf k.id d').length := by
    intro k hk
    obtain ⟨n, hn, -, -, hmembers⟩ := hformed k hk
    exact hmembers ▸ (newClusters_block hn).2.1
  refine ⟨href, ?_, ?_, hsize, ?_, ?_, ?_, ?_, ?_, ?_⟩
  · have hnames : d'.clusters.rows.map ClusterRow.name =
        (newClusters c (allGroups d) d).map NewCluster.name := by
      have hmap := congrArg (List.map ClusterView.name) hviews
      rwa [views, List.map_map, List.map_map] at hmap
    rw [hnames]
    exact newClusters_nodup c _ d
  · rw [hpaths]
    exact nodup_newFiles c _ d
  · intro k hk path hpath
    rw [hblock k hk] at hpath
    have hmem := (block_sublist c d' k.name).subset hpath
    exact mem_groupFiles.mp hmem
  · intro k hk
    obtain ⟨n, -, -, hcount, hmembers⟩ := hformed k hk
    rw [← hcount, hmembers]
  · intro k hk
    obtain ⟨n, hn, -, -, hmembers⟩ := hformed k hk
    rw [← hmembers, internalEdgeCount_of_edges hedges]
    exact (newClusters_block hn).2.2
  · intro k hk hlength
    obtain ⟨path, hpath⟩ := List.exists_mem_of_length_pos (Nat.lt_of_lt_of_le Nat.two_pos (hsize k hk))
    rw [hblock k hk] at hpath ⊢
    exact block_whole hlength hpath
  · intro k hk hlength
    rw [hblock k hk]
    exact block_split hlength
  · intro path hpath hsize hdense
    rw [block_of_files hfiles, owner_of_files hfiles] at hsize hdense ⊢
    rw [internalEdgeCount_of_edges hedges] at hdense
    have hscope : path ∈ pathsInScope (allGroups d) d := by
      rw [pathsInScope_allGroups]
      unfold Database.paths Database.filesByPath at hpath ⊢
      rwa [hfiles] at hpath
    have hnew : _ ∈ newClusters c (allGroups d) d := mem_newClusters_iff.mpr
      ⟨path, hscope, newCluster_spec.mpr ⟨hsize, hdense, rfl⟩⟩
    have hview := List.mem_map_of_mem (f := NewCluster.view) hnew
    rw [← hviews] at hview
    obtain ⟨k, hk, heq⟩ := List.mem_map.mp hview
    have hfields := ClusterView.mk.inj heq
    exact ⟨k, hk, hfields.1, hfields.2.2.2⟩

theorem detectClusters_partition (h : Referential d) (c : PostprocessConfig) :
    Partition c (detectClusters c d) :=
  partition_of_views (detectClustersFor_files c _ d) (detectClustersFor_same c _ d).edges
    (h.detectClustersFor c _) (detectClusters_views h c) (detectClusters_paths h c)

theorem newCluster_of_edges (hedges : d'.edges = d.edges) : newCluster c d' = newCluster c d := by
  funext x
  unfold newCluster internalEdgeCount entrySymbols calledSymbols
  rw [hedges]

/-- What is formed over all groups depends on the files and edges. -/
theorem newClusters_of_tables (hfiles : d'.files = d.files) (hedges : d'.edges = d.edges) :
    newClusters c (allGroups d') d' = newClusters c (allGroups d) d := by
  unfold newClusters
  rw [pathsInScope_allGroups, pathsInScope_allGroups, newCluster_of_edges hedges]
  unfold Database.paths Database.filesByPath
  rw [hfiles]

theorem newClusters_again (c : PostprocessConfig) (d : Database) :
    newClusters c (allGroups (detectClusters c d)) (detectClusters c d) =
      newClusters c (allGroups d) d :=
  newClusters_of_tables (detectClustersFor_files c _ d) (detectClustersFor_same c _ d).edges

end Detected

section Outside

/-- A cluster of a group that a detection does not look at. -/
def ClusterRow.outside (scope : List String) (k : ClusterRow) : Bool :=
  !scope.contains (clusterGroup k.name)

def MemberRow.outside (scope : List String) (d : Database) (m : MemberRow) : Bool :=
  d.clusters.rows.any fun k => k.outside scope && k.id == m.clusterId

theorem dropClusters_outside (scope : List String) (d : Database) :
    (dropClusters scope d).clusters.rows = d.clusters.rows.filter (ClusterRow.outside scope) ∧
      (dropClusters scope d).members.filter (MemberRow.outside scope (dropClusters scope d)) =
        d.members.filter (MemberRow.outside scope d) := by
  refine ⟨rfl, ?_⟩
  have hrows : (dropClusters scope d).clusters.rows =
      d.clusters.rows.filter (ClusterRow.outside scope) := rfl
  have hmembers : (dropClusters scope d).members = d.members.filter fun m =>
      !(d.clusters.rows.any fun k => scope.contains (clusterGroup k.name) && k.id == m.clusterId) :=
    rfl
  rw [hmembers, List.filter_filter]
  refine List.filter_congr fun m _ => ?_
  have hsame : MemberRow.outside scope (dropClusters scope d) m = MemberRow.outside scope d m := by
    unfold MemberRow.outside
    rw [hrows, List.any_filter]
    refine congrArg (List.any d.clusters.rows) (funext fun k => ?_)
    cases k.outside scope <;> rfl
  rw [hsame]
  cases hout : MemberRow.outside scope d m with
  | false => rfl
  | true =>
    obtain ⟨k, hk, hkm⟩ := List.any_eq_true.mp hout
    obtain ⟨hkout, hkid⟩ := Bool.and_eq_true_iff.mp hkm
    have hnone : (d.clusters.rows.any fun k =>
        scope.contains (clusterGroup k.name) && k.id == m.clusterId) = false := by
      refine List.any_eq_false.mpr fun k' hk' hin => ?_
      obtain ⟨hin, hid⟩ := Bool.and_eq_true_iff.mp hin
      have heq := d.clusters.eq_of_number hk' hk ((beq_iff_eq.mp hid).trans (beq_iff_eq.mp hkid).symm)
      rw [ClusterRow.outside, ← heq, hin] at hkout
      exact Bool.noConfusion hkout
    rw [hnone]
    rfl

theorem insertCluster_outside {k : NewCluster} (hk : scope.contains (clusterGroup k.name) = true) :
    (insertCluster d k).clusters.rows.filter (ClusterRow.outside scope) =
        d.clusters.rows.filter (ClusterRow.outside scope) ∧
      (insertCluster d k).members.filter (MemberRow.outside scope (insertCluster d k)) =
        d.members.filter (MemberRow.outside scope d) := by
  have hin : (k.row (d.clusters.last + 1)).outside scope = false := by
    rw [ClusterRow.outside, show (k.row (d.clusters.last + 1)).name = k.name from rfl, hk]
    rfl
  have hrows : (insertCluster d k).clusters.rows =
      d.clusters.rows ++ [k.row (d.clusters.last + 1)] := rfl
  have hsame : MemberRow.outside scope (insertCluster d k) = MemberRow.outside scope d := by
    funext m
    unfold MemberRow.outside
    rw [hrows, List.any_append, List.any_cons, hin]
    simp
  have hnew : (k.files.map fun path => (⟨d.clusters.last + 1, path⟩ : MemberRow)).filter
      (MemberRow.outside scope d) = [] := by
    refine List.filter_eq_nil_iff.mpr fun m hm hout => ?_
    obtain ⟨path, -, rfl⟩ := List.mem_map.mp hm
    obtain ⟨r, hr, hrm⟩ := List.any_eq_true.mp hout
    have hid : r.id = d.clusters.last + 1 := beq_iff_eq.mp (Bool.and_eq_true_iff.mp hrm).2
    have hle := d.clusters.bounded r hr
    omega
  constructor
  · rw [hrows, List.filter_append, List.filter_cons_of_neg (by rw [hin]; decide), List.filter_nil,
      List.append_nil]
  · rw [hsame, insertCluster, List.filter_append, hnew, List.append_nil]

/-- The clusters and members of all other groups keep their rows. -/
theorem detectClustersFor_outside (c : PostprocessConfig) (scope : List String) (d : Database) :
    (detectClustersFor c scope d).clusters.rows.filter (ClusterRow.outside scope) =
        d.clusters.rows.filter (ClusterRow.outside scope) ∧
      (detectClustersFor c scope d).members.filter
          (MemberRow.outside scope (detectClustersFor c scope d)) =
        d.members.filter (MemberRow.outside scope d) := by
  obtain ⟨hrows, hmembers⟩ := dropClusters_outside scope d
  have hscope : ∀ k ∈ newClusters c scope d, scope.contains (clusterGroup k.name) = true :=
    fun k hk => (mem_newClusters hk).1
  have hdrop : (dropClusters scope d).clusters.rows.filter (ClusterRow.outside scope) =
      d.clusters.rows.filter (ClusterRow.outside scope) := by
    rw [hrows, List.filter_filter]
    exact List.filter_congr fun k _ => Bool.and_self _
  rw [← hdrop, ← hmembers]
  unfold detectClustersFor
  generalize newClusters c scope d = clusters at hscope
  generalize dropClusters scope d = d'
  induction clusters generalizing d' with
  | nil => exact ⟨rfl, rfl⟩
  | cons k clusters ih =>
    obtain ⟨hk, hrest⟩ := List.forall_mem_cons.mp hscope
    obtain ⟨hstep, hstep'⟩ := insertCluster_outside (d := d') hk
    obtain ⟨hall, hall'⟩ := ih hrest (insertCluster d' k)
    exact ⟨hall.trans hstep, hall'.trans hstep'⟩

end Outside

end RemyCC.Index
