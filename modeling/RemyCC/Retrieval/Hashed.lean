import RemyCC.Retrieval.Clustering

/-!
# Documents and their digests

Whatever paths are scanned, each document is written with the digest of its own
columns, and that of a cluster follows the cluster's facts and current summary.
-/

namespace RemyCC.Retrieval

open Relational Text Index

/-- The stores that scans of any sources, new summaries and new counters lead to. -/
inductive Reached (g : Digests) : Store → Prop
  | empty : Reached g .empty
  | full {s : Store} (filterSmall : Bool) (c : PostprocessConfig) (src : Sources)
      (delivered : List FileOutcome) (hs : Reached g s) :
      Reached g (s.scanFull g filterSmall c src delivered)
  | files {s : Store} (filterSmall : Bool) (c : PostprocessConfig) (src : Sources)
      (requested : List String) (delivered : List FileOutcome) (hs : Reached g s) :
      Reached g (s.scanFiles g filterSmall c src requested delivered)
  | summarised {s : Store} (node : Node) (summaries : Numbered SummaryVersion.id)
      (hs : Reached g s)
      (hothers : ∀ other ≠ node, summaries.rows.filter (·.node == other) =
        s.summaries.rows.filter (·.node == other)) :
      Reached g ({ s with summaries := summaries }.refreshNode g node)
  | counted {s : Store} (node : Node) (hs : Reached g s) :
      Reached g { s with counters := s.counters.insertOrIgnore node }

section Digests

variable {g : Digests} {s : Store}

/-- Each document is the one of some facts and some summary. -/
def Hashed (g : Digests) (s : Store) : Prop :=
  ∀ doc ∈ s.documents.rows, ∃ facts summary, doc = documentOf g doc.node facts summary

theorem Hashed.withIndex (h : Hashed g s) (d : Database) : Hashed g { s with index := d } := h

theorem Hashed.withSummaries (h : Hashed g s) (summaries : Numbered SummaryVersion.id) :
    Hashed g { s with summaries := summaries } := h

theorem Hashed.withCounters (h : Hashed g s) (counters : Keyed (id : Node → Node)) :
    Hashed g { s with counters := counters } := h

theorem Hashed.deleteNode (h : Hashed g s) (node : Node) : Hashed g (s.deleteNode node) :=
  fun doc hdoc => h doc (List.mem_filter.mp hdoc).1

theorem Hashed.putDocument (h : Hashed g s) (node : Node) (facts : FactDocument)
    (summary : CurrentSummary) : Hashed g (s.putDocument (documentOf g node facts summary)) := by
  intro doc hdoc
  unfold Store.putDocument Keyed.upsert at hdoc
  dsimp only at hdoc
  split at hdoc
  · obtain ⟨old, hold, heq⟩ := List.mem_map.mp hdoc
    split at heq
    · next hnode =>
      refine ⟨facts, summary, ?_⟩
      rw [← heq, hnode]
      rfl
    · rw [← heq]
      exact h old hold
  · rcases List.mem_append.mp hdoc with hdoc | hdoc
    · exact h doc hdoc
    · rw [List.mem_singleton.mp hdoc]
      exact ⟨facts, summary, rfl⟩

theorem Hashed.refreshNode (h : Hashed g s) (node : Node) : Hashed g (s.refreshNode g node) := by
  unfold Store.refreshNode
  split
  · exact h.deleteNode node
  · exact h.putDocument node _ _

theorem Hashed.markCurrentSummaryStale (h : Hashed g s) (node : Node) :
    Hashed g (s.markCurrentSummaryStale g node) := by
  unfold Store.markCurrentSummaryStale
  split
  · exact h.refreshNode node
  · exact (h.withSummaries _).refreshNode node

theorem Hashed.staleIf (h : Hashed g s) (changed : Bool) (node : Node) :
    Hashed g (s.staleIf g changed node) := by
  cases changed
  · exact h
  · exact h.markCurrentSummaryStale node

theorem Hashed.addInitial (h : Hashed g s) (node : Node) (version : Nat) (short : Option String) :
    Hashed g (s.addInitial node version short) := by
  cases short
  · exact h
  · exact h.withSummaries _

theorem Hashed.foldl {α : Type} {step : Store → α → Store} (h : Hashed g s)
    (hstep : ∀ s a, Hashed g s → Hashed g (step s a)) (list : List α) :
    Hashed g (list.foldl step s) := by
  induction list generalizing s with
  | nil => exact h
  | cons a list ih => exact ih (hstep s a h)

theorem Hashed.writeSymbol (h : Hashed g s) (filterSmall : Bool) (f : FileFacts)
    (old : List SymbolRow) (versions : List SummaryVersion) (symbol : SymbolInfo) :
    Hashed g (writeSymbol g filterSmall f old versions s symbol) := by
  have hindex := h.withIndex (insertSymbol s.index (f.symbolRow g.toHashes symbol))
  unfold Retrieval.writeSymbol
  dsimp only
  split
  · exact hindex.refreshNode _
  · exact ((hindex.staleIf _ _).addInitial _ _ _).refreshNode _

theorem Hashed.write (h : Hashed g s) (filterSmall : Bool) (f : FileFacts) :
    Hashed g (s.write g filterSmall f) := by
  unfold Store.write
  split
  · exact h
  · refine Hashed.withIndex (Hashed.refreshNode (Hashed.staleIf ?_ _ _) _) _
    refine Hashed.foldl ?_ (fun s name hs => hs.deleteNode _) _
    exact (h.withIndex _).foldl (fun s symbol hs => hs.writeSymbol filterSmall f _ _ symbol) _

theorem Hashed.delete (h : Hashed g s) (path : String) : Hashed g (s.delete path) := by
  unfold Store.delete
  exact Hashed.withIndex (Hashed.deleteNode (h.foldl (fun _ _ hs => hs.deleteNode _) _) _) _

theorem Hashed.formCluster (h : Hashed g s) (before : Database) (existing : List String)
    (k : NewCluster) : Hashed g (formCluster g before existing s k) := by
  unfold Retrieval.formCluster
  exact Hashed.refreshNode (((h.withIndex _).withCounters _).staleIf _ _) _

theorem Hashed.detectClustersFor (h : Hashed g s) (c : PostprocessConfig) (scope : List String) :
    Hashed g (s.detectClustersFor g c scope) := by
  unfold Store.detectClustersFor
  dsimp only
  refine Hashed.withCounters (Hashed.foldl ?_ (fun s name hs => hs.deleteNode _) _) _
  exact (h.withIndex _).foldl (fun s k hs => hs.formCluster _ _ k) _

theorem Hashed.applyOps (h : Hashed g s) (filterSmall : Bool) (ops : List FileOp) :
    Hashed g (s.applyOps g filterSmall ops) := by
  refine h.foldl (fun s op hs => ?_) ops
  cases op with
  | write f => exact hs.write filterSmall f
  | delete path => exact hs.delete path

theorem Reached.hashed (hs : Reached g s) : Hashed g s := by
  induction hs with
  | empty => exact fun doc hdoc => absurd hdoc List.not_mem_nil
  | full filterSmall c src delivered hs ih =>
    unfold Store.scanFull Store.run Store.detectClusters
    exact ((ih.applyOps filterSmall _).withIndex _).detectClustersFor c _
  | files filterSmall c src requested delivered hs ih =>
    unfold Store.scanFiles Store.runIncremental
    exact ((ih.applyOps filterSmall _).withIndex _).detectClustersFor c _
  | summarised node summaries hs hothers ih => exact (ih.withSummaries summaries).refreshNode node
  | counted node hs ih => exact ih.withCounters _

end Digests

section Clusters

variable {g : Digests} {s s' : Store} {name : String}

/-- The document of a cluster is the expected one. -/
def Follows (g : Digests) (s : Store) (name : String) : Prop :=
  s.document? (clusterNode name) = s.expected g (clusterNode name)

def NotCluster (node : Node) : Prop := node.kind ≠ .cluster

theorem Follows.of_confined (h : Follows g s name) (hconfined : Confined g NotCluster s s') :
    Follows g s' name := by
  obtain ⟨hdocument, hexpected⟩ := hconfined (clusterNode name) fun hnot => hnot rfl
  exact hdocument.trans (h.trans hexpected.symm)

theorem index_confined (s : Store) {d : Database} (hclusters : d.clusters = s.index.clusters) :
    Confined g NotCluster s { s with index := d } := by
  intro node hnode
  obtain ⟨kind, ref⟩ := node
  have hkind : kind = .cluster := not_not.mp hnode
  subst hkind
  refine ⟨rfl, ?_⟩
  rw [Store.expected, Store.expected, loadFactDocument, loadFactDocument, hclusters]

theorem Confined.offClusters {node : Node} (h : Confined g (· = node) s s')
    (hkind : node.kind ≠ .cluster) : Confined g NotCluster s s' :=
  h.mono fun other hother => by rwa [hother]

theorem Confined.foldl {α : Type} {step : Store → α → Store} {nodes : Node → Prop}
    (hstep : ∀ s a, Confined g nodes s (step s a)) (list : List α) (s : Store) :
    Confined g nodes s (list.foldl step s) := by
  induction list generalizing s with
  | nil => exact .refl _ s
  | cons a list ih => exact (hstep s a).trans (ih _)

theorem writeSymbol_offClusters (filterSmall : Bool) (f : FileFacts) (old : List SymbolRow)
    (versions : List SummaryVersion) (s : Store) (symbol : SymbolInfo) :
    Confined g NotCluster s (writeSymbol g filterSmall f old versions s symbol) := by
  have hkind : (symbolNode f.relPath symbol.name).kind ≠ .cluster := by simp [symbolNode]
  have hindex := index_confined (g := g) s
    (d := insertSymbol s.index (f.symbolRow g.toHashes symbol)) rfl
  unfold writeSymbol
  dsimp only
  split
  · exact hindex.trans ((refreshNode_refreshed g _ _).others.offClusters hkind)
  · exact ((hindex.trans ((staleIf_confined _ _).offClusters hkind)).trans
      ((addInitial_confined _ _ _).offClusters hkind)).trans
      ((refreshNode_refreshed g _ _).others.offClusters hkind)

theorem write_offClusters (filterSmall : Bool) (f : FileFacts) (s : Store) :
    Confined g NotCluster s (s.write g filterSmall f) := by
  have hkind : (fileNode f.relPath).kind ≠ .cluster := by simp [fileNode]
  unfold Store.write
  split
  · exact .refl _ s
  · refine Confined.trans (Confined.trans (Confined.trans (Confined.trans (Confined.trans
      (index_confined s (d := startWrite f s.index) rfl)
      (Confined.foldl (writeSymbol_offClusters filterSmall f _ _) _ _))
      (Confined.foldl (fun s name => ?_) _ _))
      ((staleIf_confined _ _).offClusters hkind))
      ((refreshNode_refreshed g _ _).others.offClusters hkind))
      (index_confined _ rfl)
    exact (deleteNode_confined s _).offClusters (by simp [symbolNode])

theorem delete_offClusters (path : String) (s : Store) :
    Confined g NotCluster s (s.delete path) := by
  unfold Store.delete
  refine Confined.trans (Confined.trans (Confined.foldl (fun s name => ?_) _ _)
    ((deleteNode_confined _ _).offClusters (by simp [fileNode]))) (index_confined _ ?_)
  · exact (deleteNode_confined s _).offClusters (by simp [symbolNode])
  · have hindex := (Store.foldl_deleteNode (symbolNode path)
      ((orderBy (compareOn SymbolRow.name)
        (s.index.symbols.rows.filter fun r => r.filePath == path)).map SymbolRow.name) s).1
    rw [deleteFile_fst, Store.deleteNode_index, hindex]
    rfl

theorem applyOps_offClusters (filterSmall : Bool) (ops : List FileOp) (s : Store) :
    Confined g NotCluster s (s.applyOps g filterSmall ops) := by
  refine Confined.foldl (fun s op => ?_) ops s
  cases op with
  | write f => exact write_offClusters filterSmall f s
  | delete path => exact delete_offClusters path s

theorem expected_of_unnamed (h : name ∉ s.index.clusters.rows.map ClusterRow.name) :
    s.expected g (clusterNode name) = none := by
  have hnone : s.index.clusters.rows.find? (·.name == name) = none :=
    List.find?_eq_none.mpr fun k hk heq => h (List.mem_map.mpr ⟨k, hk, beq_iff_eq.mp heq⟩)
  rw [Store.expected, clusterNode, loadFactDocument, hnone]
  rfl

/-- Clusters that are formed follow their facts, and the others keep what they have. -/
theorem formed_follows (before : Database) (existing : List String) (clusters : List NewCluster)
    (s : Store) :
    (name ∈ clusters.map NewCluster.name →
        Follows g (clusters.foldl (formCluster g before existing) s) name) ∧
      (name ∉ clusters.map NewCluster.name →
        (clusters.foldl (formCluster g before existing) s).document? (clusterNode name) =
            s.document? (clusterNode name) ∧
          (clusters.foldl (formCluster g before existing) s).expected g (clusterNode name) =
            s.expected g (clusterNode name)) := by
  induction clusters generalizing s with
  | nil => exact ⟨fun h => absurd h List.not_mem_nil, fun _ => ⟨rfl, rfl⟩⟩
  | cons k clusters ih =>
    have hformed := formCluster_refreshed (g := g) before existing s k
    obtain ⟨hin, hout⟩ := ih (formCluster g before existing s k)
    rw [List.foldl_cons, List.map_cons]
    refine ⟨fun hname => ?_, fun hname => ?_⟩
    · by_cases hlater : name ∈ clusters.map NewCluster.name
      · exact hin hlater
      · obtain ⟨hdocument, hexpected⟩ := hout hlater
        have hk : name = k.name := (List.mem_cons.mp hname).resolve_right hlater
        rw [Follows, hdocument, hexpected, hk]
        exact hformed.self
    · rw [List.mem_cons, not_or] at hname
      obtain ⟨hdocument, hexpected⟩ := hout hname.2
      obtain ⟨hdocument', hexpected'⟩ := hformed.others (clusterNode name) fun heq =>
        hname.1 (clusterNode_inj heq)
      exact ⟨hdocument.trans hdocument', hexpected.trans hexpected'⟩

theorem dropClusters_expected (scope : List String) (s : Store)
    (hscope : ¬scope.contains (clusterGroup name) = true) :
    ({ s with index := dropClusters scope s.index } : Store).expected g (clusterNode name) =
      s.expected g (clusterNode name) := by
  have hload : loadFactDocument (dropClusters scope s.index) (clusterNode name) =
      loadFactDocument s.index (clusterNode name) := by
    refine loadFactDocument_clusters rfl rfl fun _ => ?_
    rw [dropClusters, Numbered.deleteWhere_rows, List.find?_filter]
    refine List.find?_congr fun k _ => ?_
    by_cases hname : k.name = name
    · simp [clusterNode, hname, List.contains_iff_mem.not.mp hscope]
    · simp [clusterNode, hname]
  rw [Store.expected, hload, Store.expected]

theorem dropClusters_unnamed (scope : List String) (d : Database)
    (hscope : scope.contains (clusterGroup name) = true) :
    name ∉ (dropClusters scope d).clusters.rows.map ClusterRow.name := by
  intro hmem
  obtain ⟨k, hk, rfl⟩ := List.mem_map.mp hmem
  have hout : (!scope.contains (clusterGroup k.name)) = true := (List.mem_filter.mp hk).2
  rw [hscope] at hout
  exact Bool.noConfusion hout

theorem Follows.detectClustersFor (h : Follows g s name) (c : PostprocessConfig)
    (scope : List String) : Follows g (s.detectClustersFor g c scope) name := by
  obtain ⟨hin, hout⟩ := @formed_follows g name s.index (namesInScope scope s.index)
    (newClusters c scope s.index) { s with index := dropClusters scope s.index }
  have hindex : ((newClusters c scope s.index).foldl
      (formCluster g s.index (namesInScope scope s.index))
      { s with index := dropClusters scope s.index }).index = _ := foldl_formCluster_index _ _
  have hcurrent : name ∈ namesInScope scope _ ↔
      name ∈ (newClusters c scope s.index).map NewCluster.name := mem_current scope s.index
  unfold Store.detectClustersFor
  dsimp only
  generalize (newClusters c scope s.index).foldl (formCluster g s.index (namesInScope scope s.index))
    { s with index := dropClusters scope s.index } = t at *
  rw [← hindex] at hcurrent
  change Store.document? (List.foldl _ t _) _ = Store.expected g (List.foldl _ t _) _
  rw [foldl_deleteNode_document? clusterNode, foldl_deleteNode_expected clusterNode]
  have hgone : clusterNode name ∈ ((namesInScope scope s.index).filter fun name =>
      !(namesInScope scope t.index).contains name).map clusterNode ↔
      name ∈ namesInScope scope s.index ∧
        name ∉ (newClusters c scope s.index).map NewCluster.name := by
    rw [List.mem_map_of_injective fun _ _ => clusterNode_inj, List.mem_filter,
      List.contains_eq_mem, Bool.not_eq_true', decide_eq_false_iff_not, hcurrent]
  by_cases hnew : name ∈ (newClusters c scope s.index).map NewCluster.name
  · rw [if_neg fun hmem => (hgone.mp hmem).2 hnew]
    exact hin hnew
  · obtain ⟨hdocument, hexpected⟩ := hout hnew
    rw [hdocument, hexpected]
    by_cases hscope : scope.contains (clusterGroup name) = true
    · rw [expected_of_unnamed (dropClusters_unnamed scope s.index hscope)]
      by_cases hold : name ∈ s.index.clusters.rows.map ClusterRow.name
      · rw [if_pos (hgone.mpr ⟨mem_namesInScope.mpr ⟨hold, hscope⟩, hnew⟩)]
      · rw [ite_eq_left_iff]
        exact fun _ => h.trans (expected_of_unnamed hold)
    · rw [if_neg fun hmem => hscope (mem_namesInScope.mp (hgone.mp hmem).1).2,
        dropClusters_expected scope s hscope]
      exact h

theorem Follows.summarised (h : Follows g s name) (node : Node)
    (summaries : Numbered SummaryVersion.id)
    (hothers : ∀ other ≠ node, summaries.rows.filter (·.node == other) =
      s.summaries.rows.filter (·.node == other)) :
    Follows g ({ s with summaries := summaries }.refreshNode g node) name := by
  have hrefreshed := refreshNode_refreshed g { s with summaries := summaries } node
  by_cases hnode : clusterNode name = node
  · rw [Follows, hnode]
    exact hrefreshed.self
  · obtain ⟨hdocument, hexpected⟩ := hrefreshed.others (clusterNode name) hnode
    have hselect : ({ s with summaries := summaries } : Store).expected g (clusterNode name) =
        s.expected g (clusterNode name) := expected_of_select rfl (hothers _ hnode)
    rw [Follows, hdocument, hexpected, hselect]
    exact h

theorem computeFileKindsFor_clusters (c : PostprocessConfig) (paths : List String) (d : Database) :
    (computeFileKindsFor c paths d).clusters = d.clusters := rfl

theorem Follows.run (h : Follows g s name) (c : PostprocessConfig) : Follows g (s.run g c) name := by
  have hclusters : (computeFileKinds c (resynthesize c
      (resolveCallEdges c (resetDirectEdgeResolution s.index)))).clusters = s.index.clusters := by
    rw [computeFileKinds, computeFileKindsFor_clusters, (resynthesize_same c _).clusters,
      (resolveFull_same _).clusters]
  unfold Store.run Store.detectClusters
  exact (h.of_confined (index_confined s hclusters)).detectClustersFor c _

theorem Follows.runIncremental (h : Follows g s name) (c : PostprocessConfig) (delta : ScanDelta) :
    Follows g (s.runIncremental g c delta) name := by
  have hclusters : (computeFileKindsFor c (affectedFiles c delta s.index) (resynthesize c
      (resolveTargets c delta s.index))).clusters = s.index.clusters := by
    rw [computeFileKindsFor_clusters, (resynthesize_same c _).clusters,
      (resolveTargets_same _ _).clusters]
  unfold Store.runIncremental
  exact (h.of_confined (index_confined s hclusters)).detectClustersFor c _

/-- The document of each cluster follows what is known of it. -/
theorem Reached.follows (hs : Reached g s) (name : String) : Follows g s name := by
  induction hs with
  | empty => rfl
  | @full s filterSmall c src delivered hs ih =>
    exact (ih.of_confined (applyOps_offClusters filterSmall _ s)).run c
  | @files s filterSmall c src requested delivered hs ih =>
    exact (ih.of_confined (applyOps_offClusters filterSmall _ s)).runIncremental c _
  | summarised node summaries hs hothers ih => exact ih.summarised node summaries hothers
  | counted node hs ih => exact ih

end Clusters

end RemyCC.Retrieval
