import RemyCC.Index.Members
import RemyCC.Retrieval.Projected

/-!
# Clusters and their documents

While the clusters of some groups are formed anew, the documents of those not
yet formed are as they were before; the ones that nothing forms are deleted at
the end, and so are their counters.
-/

namespace RemyCC.Retrieval

open Relational Text Index

variable {g : Digests} {s s₀ : Store} {scope formed existing : List String} {before : Database}
  {node : Node}

theorem loadFactDocument_clusters {d d' : Database} (hfiles : d'.files = d.files)
    (hsymbols : d'.symbols = d.symbols)
    (hclusters : node.kind = .cluster → d'.clusters.rows.find? (·.name == node.ref) =
      d.clusters.rows.find? (·.name == node.ref)) :
    loadFactDocument d' node = loadFactDocument d node := by
  obtain ⟨kind, ref⟩ := node
  cases kind with
  | symbol =>
    obtain ⟨_, _, _, _, _, _, _, _⟩ := d
    obtain ⟨_, _, _, _, _, _, _, _⟩ := d'
    cases hfiles
    cases hsymbols
    rfl
  | file => rw [loadFactDocument, loadFactDocument, Database.file?, hfiles, Database.file?]
  | cluster => rw [loadFactDocument, loadFactDocument, hclusters rfl]

theorem insertCluster_confined (s : Store) (k : NewCluster) (counters : Keyed (id : Node → Node)) :
    Confined g (· = clusterNode k.name) s
      { s with index := insertCluster s.index k, counters := counters } := by
  refine fun node hnode => ⟨rfl, ?_⟩
  have hload : loadFactDocument (insertCluster s.index k) node = loadFactDocument s.index node := by
    refine loadFactDocument_clusters rfl rfl fun hkind => ?_
    have hmiss : [k.row (s.index.clusters.last + 1)].find? (·.name == node.ref) = none := by
      rw [List.find?_singleton, if_neg]
      rw [beq_iff_eq]
      rintro hname
      exact hnode (by rw [clusterNode, ← hkind, show k.name = node.ref from hname])
    rw [insertCluster, Numbered.insert_rows, List.find?_append, hmiss, Option.or_none]
  rw [Store.expected, hload, Store.expected]

theorem formCluster_refreshed (before : Database) (existing : List String) (s : Store)
    (k : NewCluster) : Refreshed g (clusterNode k.name) s (formCluster g before existing s k) :=
  ((insertCluster_confined s k _).trans (staleIf_confined _ _)).refreshed

/-- The store in the middle of a detection, with the clusters formed so far. -/
structure Forming (g : Digests) (scope : List String) (s₀ s : Store) (formed : List String) : Prop where
  done : ∀ node, (∀ name ∉ formed, scope.contains (clusterGroup name) = true →
    node ≠ clusterNode name) → s.document? node = s.expected g node
  pending : ∀ name ∉ formed, scope.contains (clusterGroup name) = true →
    s.document? (clusterNode name) = s₀.document? (clusterNode name) ∧
      s.expected g (clusterNode name) = none

theorem clusterNode_inj {name name' : String} (h : clusterNode name = clusterNode name') :
    name = name' := (Node.mk.inj h).2

theorem Projected.forming (h : Projected g s) (scope : List String) :
    Forming g scope s { s with index := dropClusters scope s.index } [] where
  done node hnode := by
    refine (h node).trans ?_
    have hload : loadFactDocument (dropClusters scope s.index) node =
        loadFactDocument s.index node := by
      refine loadFactDocument_clusters rfl rfl fun hkind => ?_
      have hscope : ¬scope.contains (clusterGroup node.ref) = true := fun hin =>
        hnode node.ref List.not_mem_nil hin (by rw [clusterNode, ← hkind])
      rw [dropClusters, Numbered.deleteWhere_rows, List.find?_filter]
      refine List.find?_congr fun k _ => ?_
      by_cases hname : k.name = node.ref
      · simp [hname, List.contains_iff_mem.not.mp hscope]
      · simp [hname]
    rw [Store.expected, Store.expected, hload]
  pending name _ hscope := by
    refine ⟨rfl, ?_⟩
    have hnone : (dropClusters scope s.index).clusters.rows.find? (·.name == name) = none := by
      refine List.find?_eq_none.mpr fun k hk hname => ?_
      have hout : (!scope.contains (clusterGroup k.name)) = true := (List.mem_filter.mp hk).2
      rw [beq_iff_eq.mp hname, hscope] at hout
      exact Bool.noConfusion hout
    rw [Store.expected, clusterNode, loadFactDocument, hnone]
    rfl

theorem Forming.cluster (h : Forming g scope s₀ s formed) (before : Database)
    (existing : List String) (k : NewCluster) :
    Forming g scope s₀ (formCluster g before existing s k) (formed ++ [k.name]) := by
  have hr := formCluster_refreshed (g := g) before existing s k
  refine ⟨fun node hnode => ?_, fun name hname hscope => ?_⟩
  · by_cases hself : node = clusterNode k.name
    · rw [hself]
      exact hr.self
    · obtain ⟨hdoc, hexp⟩ := hr.others node hself
      rw [hdoc, hexp]
      refine h.done node fun name hname hscope heq => ?_
      by_cases hk : name = k.name
      · exact hself (heq.trans (congrArg clusterNode hk))
      · exact hnode name (by simp [hname, hk]) hscope heq
  · rw [List.mem_append, List.mem_singleton, not_or] at hname
    obtain ⟨hdoc, hexp⟩ := hr.others _ fun heq => hname.2 (clusterNode_inj heq)
    rw [hdoc, hexp]
    exact h.pending name hname.1 hscope

theorem Forming.clusters (h : Forming g scope s₀ s formed) (before : Database)
    (existing : List String) (clusters : List NewCluster) :
    Forming g scope s₀ (clusters.foldl (formCluster g before existing) s)
      (formed ++ clusters.map NewCluster.name) := by
  induction clusters generalizing s formed with
  | nil => rwa [List.map_nil, List.append_nil]
  | cons k clusters ih =>
    have hstep := ih (h.cluster before existing k)
    rwa [List.append_assoc] at hstep

theorem mem_namesInScope {name : String} {d : Database} : name ∈ namesInScope scope d ↔
    name ∈ d.clusters.rows.map ClusterRow.name ∧ scope.contains (clusterGroup name) = true := by
  simp only [namesInScope, List.mem_filter, List.mem_map, mem_orderBy]

theorem document?_of_absent {name : String} (h : Projected g s)
    (hname : name ∉ s.index.clusters.rows.map ClusterRow.name) :
    s.document? (clusterNode name) = none := by
  have hnone : s.index.clusters.rows.find? (·.name == name) = none :=
    List.find?_eq_none.mpr fun k hk heq => hname (List.mem_map.mpr ⟨k, hk, beq_iff_eq.mp heq⟩)
  rw [h, Store.expected, clusterNode, loadFactDocument, hnone]
  rfl

/-- The clusters in scope after a detection are the ones it forms. -/
theorem mem_current {c : PostprocessConfig} {name : String} (scope : List String) (d : Database) :
    name ∈ namesInScope scope ((newClusters c scope d).foldl insertCluster (dropClusters scope d)) ↔
      name ∈ (newClusters c scope d).map NewCluster.name := by
  rw [mem_namesInScope, foldl_insertCluster_names, List.mem_append]
  refine ⟨fun ⟨hname, hscope⟩ => hname.resolve_left fun hold => ?_, fun hname => ⟨.inr hname, ?_⟩⟩
  · obtain ⟨k, hk, rfl⟩ := List.mem_map.mp hold
    have hout : (!scope.contains (clusterGroup k.name)) = true := (List.mem_filter.mp hk).2
    rw [hscope] at hout
    exact Bool.noConfusion hout
  · obtain ⟨k, hk, rfl⟩ := List.mem_map.mp hname
    exact (mem_newClusters hk).1

theorem Projected.withCounters (h : Projected g s) (counters : Keyed (id : Node → Node)) :
    Projected g { s with counters := counters } := h

theorem Projected.detectClustersFor (h : Projected g s) (c : PostprocessConfig)
    (scope : List String) : Projected g (s.detectClustersFor g c scope) := by
  have hforming := (h.forming scope).clusters s.index (namesInScope scope s.index)
    (newClusters c scope s.index)
  have hindex : ((newClusters c scope s.index).foldl
      (formCluster g s.index (namesInScope scope s.index))
      { s with index := dropClusters scope s.index }).index = _ := foldl_formCluster_index _ _
  have hcurrent {name : String} : name ∈ namesInScope scope _ ↔
      name ∈ (newClusters c scope s.index).map NewCluster.name := mem_current scope s.index
  unfold Store.detectClustersFor
  dsimp only
  rw [List.nil_append] at hforming
  generalize (newClusters c scope s.index).foldl (formCluster g s.index (namesInScope scope s.index))
    { s with index := dropClusters scope s.index } = t at *
  rw [← hindex] at hcurrent
  refine Projected.withCounters (fun node => ?_) _
  generalize hgone : (namesInScope scope s.index).filter
    (fun name => !(namesInScope scope t.index).contains name) = gone
  have hmem {name : String} : name ∈ gone ↔ name ∈ namesInScope scope s.index ∧
      name ∉ (newClusters c scope s.index).map NewCluster.name := by
    rw [← hgone, List.mem_filter, List.contains_eq_mem, Bool.not_eq_true', decide_eq_false_iff_not,
      hcurrent]
  rw [foldl_deleteNode_document? clusterNode, foldl_deleteNode_expected clusterNode]
  by_cases hpending : ∃ name ∉ (newClusters c scope s.index).map NewCluster.name,
      scope.contains (clusterGroup name) = true ∧ node = clusterNode name
  · obtain ⟨name, hname, hscope, rfl⟩ := hpending
    obtain ⟨hdoc, hexp⟩ := hforming.pending name hname hscope
    rw [hdoc, hexp]
    split
    · rfl
    · next hkept =>
      refine document?_of_absent h fun hold => hkept (List.mem_map_of_mem (hmem.mpr ⟨?_, hname⟩))
      exact mem_namesInScope.mpr ⟨hold, hscope⟩
  · have hkept : node ∉ gone.map clusterNode := fun hdeleted => by
      obtain ⟨name, hname, rfl⟩ := List.mem_map.mp hdeleted
      obtain ⟨hold, hnew⟩ := hmem.mp hname
      exact hpending ⟨name, hnew, (mem_namesInScope.mp hold).2, rfl⟩
    rw [if_neg hkept]
    exact hforming.done node fun name hname hscope heq => hpending ⟨name, hname, hscope, heq⟩

end RemyCC.Retrieval
