import RemyCC.Index.Partition
import RemyCC.Retrieval.Consistent
import RemyCC.Retrieval.Dated

/-!
# Detection again, and detection of some groups

A detection that follows another finds every cluster standing, with its counter
and its document, and writes the rows that are there; one of some groups writes
no row of another.
-/

namespace RemyCC.Retrieval

open Relational Text Index

variable {g : Digests} {now : Nat → String} {c : PostprocessConfig} {scope existing : List String}
  {before : Database} {name : String}

section Formed

theorem foldl_formCluster_confined (before : Database) (existing : List String)
    (clusters : List NewCluster) (s : Store) :
    Confined g (fun node => ∃ k ∈ clusters, node = clusterNode k.name) s
      (clusters.foldl (formCluster g before existing) s) := by
  induction clusters generalizing s with
  | nil => exact .refl _ s
  | cons k clusters ih =>
    have hstep := (formCluster_refreshed (g := g) before existing s k).others
    refine (hstep.mono ?_).trans ((ih _).mono ?_)
    · rintro node rfl
      exact ⟨k, List.mem_cons_self, rfl⟩
    · rintro node ⟨k', hk', rfl⟩
      exact ⟨k', List.mem_cons_of_mem k hk', rfl⟩

/-- A formed cluster has the document that its facts and its summary call for. -/
theorem foldl_formCluster_document (before : Database) (existing : List String)
    (clusters : List NewCluster) (s : Store) {k : NewCluster} (hk : k ∈ clusters) :
    (clusters.foldl (formCluster g before existing) s).document? (clusterNode k.name) =
      (clusters.foldl (formCluster g before existing) s).expected g (clusterNode k.name) := by
  induction clusters generalizing s k with
  | nil => exact absurd hk List.not_mem_nil
  | cons k' clusters ih =>
    rw [List.foldl_cons]
    by_cases hagain : ∃ k' ∈ clusters, clusterNode k.name = clusterNode k'.name
    · obtain ⟨k', hk', hname⟩ := hagain
      rw [hname]
      exact ih _ hk'
    · have hlast : k = k' :=
        (List.mem_cons.mp hk).resolve_right fun hrest => hagain ⟨k, hrest, rfl⟩
      subst hlast
      have hself := (formCluster_refreshed (g := g) before existing s k).self
      obtain ⟨hdoc, hexp⟩ := foldl_formCluster_confined (g := g) before existing clusters
        (formCluster g before existing s k) _ hagain
      rw [hdoc, hexp, hself]

theorem mem_formCluster_counters {node : Node} {s : Store} {k : NewCluster}
    (h : node ∈ s.counters.rows ∨ node = clusterNode k.name) :
    node ∈ (formCluster g before existing s k).counters.rows := by
  have hkeys := Keyed.keys_insertOrIgnore (t := s.counters) (r := clusterNode k.name) (k := node)
  unfold formCluster
  rw [Store.refreshNode_counters, Store.staleIf_counters]
  simp only [List.map_id] at hkeys
  exact hkeys h

theorem mem_foldl_formCluster_counters {node : Node} (before : Database) (existing : List String)
    (clusters : List NewCluster) (s : Store)
    (h : node ∈ s.counters.rows ∨ node ∈ clusters.map fun k => clusterNode k.name) :
    node ∈ (clusters.foldl (formCluster g before existing) s).counters.rows := by
  induction clusters generalizing s with
  | nil => exact h.resolve_right List.not_mem_nil
  | cons k clusters ih =>
    refine ih _ ?_
    rw [List.map_cons, List.mem_cons, ← or_assoc] at h
    exact h.imp_left mem_formCluster_counters

/-- What a detection leaves at the clusters that it forms. -/
theorem detectClustersFor_formed (s : Store) {k : NewCluster}
    (hk : k ∈ newClusters c scope s.index) :
    (s.detectClustersFor g c scope).document? (clusterNode k.name) =
        (s.detectClustersFor g c scope).expected g (clusterNode k.name) ∧
      clusterNode k.name ∈ (s.detectClustersFor g c scope).counters.rows := by
  have hdoc := foldl_formCluster_document (g := g) s.index (namesInScope scope s.index)
    (newClusters c scope s.index) { s with index := dropClusters scope s.index } hk
  have hcounter := mem_foldl_formCluster_counters (g := g) s.index (namesInScope scope s.index)
    (newClusters c scope s.index) { s with index := dropClusters scope s.index }
    (.inr (List.mem_map_of_mem (f := fun k : NewCluster => clusterNode k.name) hk))
  have hcurrent : k.name ∈ namesInScope scope ((newClusters c scope s.index).foldl
      (formCluster g s.index (namesInScope scope s.index))
      { s with index := dropClusters scope s.index }).index := by
    rw [foldl_formCluster_index]
    exact (mem_current scope s.index).mpr (List.mem_map_of_mem hk)
  unfold Store.detectClustersFor
  dsimp only
  generalize (newClusters c scope s.index).foldl
    (formCluster g s.index (namesInScope scope s.index))
    { s with index := dropClusters scope s.index } = t at hdoc hcounter hcurrent
  have hcontains : (namesInScope scope t.index).contains k.name = true :=
    List.contains_iff_mem.mpr hcurrent
  have hkept : clusterNode k.name ∉ ((namesInScope scope s.index).filter fun name =>
      !(namesInScope scope t.index).contains name).map clusterNode := fun hgone => by
    obtain ⟨name, hname, heq⟩ := List.mem_map.mp hgone
    rw [clusterNode_inj heq, List.mem_filter, hcontains] at hname
    exact Bool.noConfusion hname.2
  constructor
  · have hexp := foldl_deleteNode_expected (g := g) clusterNode ((namesInScope scope s.index).filter
      fun name => !(namesInScope scope t.index).contains name) t (clusterNode k.name)
    refine (foldl_deleteNode_document? clusterNode _ t _).trans ?_
    rw [if_neg hkept, hdoc]
    exact hexp.symm
  · refine List.mem_filter.mpr ⟨?_, ?_⟩
    · rw [(Store.foldl_deleteNode clusterNode _ t).2.2]
      exact hcounter
    · change (!(NodeKind.cluster == .cluster && scope.contains (clusterGroup k.name) &&
        !(namesInScope scope t.index).contains k.name)) = true
      rw [hcontains, Bool.not_true, Bool.and_false]
      rfl

end Formed

section Outside

/-- A node that a detection of some groups does not look at. -/
def Node.outside (scope : List String) (node : Node) : Bool :=
  !(node.kind == .cluster && scope.contains (clusterGroup node.ref))

/-- The rows of all nodes outside some groups are kept. -/
structure Apart (scope : List String) (t t' : DatedStore) : Prop where
  summaries : t'.summaries.rows.filter (fun r => r.node.outside scope) =
    t.summaries.rows.filter fun r => r.node.outside scope
  documents : t'.documents.rows.filter (fun r => r.node.outside scope) =
    t.documents.rows.filter fun r => r.node.outside scope
  counters : t'.counters.rows.filter (fun r => r.node.outside scope) =
    t.counters.rows.filter fun r => r.node.outside scope

variable {t t' t'' : DatedStore} {node : Node}

theorem Apart.refl (scope : List String) (t : DatedStore) : Apart scope t t := ⟨rfl, rfl, rfl⟩

theorem Apart.trans (h : Apart scope t t') (h' : Apart scope t' t'') : Apart scope t t'' :=
  ⟨h'.summaries.trans h.summaries, h'.documents.trans h.documents, h'.counters.trans h.counters⟩

theorem Apart.otherKinds (h : Apart scope t t') :
    t'.documents.rows.filter (fun r => r.node.kind != .cluster) =
      t.documents.rows.filter fun r => r.node.kind != .cluster := by
  have hfilter := congrArg (List.filter fun r : DatedDocument => r.node.kind != .cluster) h.documents
  simp only [List.filter_filter] at hfilter
  have hpred : (fun r : DatedDocument => r.node.kind != .cluster && r.node.outside scope) =
      fun r => r.node.kind != .cluster := by
    funext r
    rw [Node.outside, bne]
    cases r.node.kind == NodeKind.cluster <;> rfl
  rwa [hpred] at hfilter

theorem clusterNode_outside (h : scope.contains (clusterGroup name) = true) :
    (clusterNode name).outside scope = false := by
  change (!(NodeKind.cluster == .cluster && scope.contains (clusterGroup name))) = false
  rw [h]
  rfl

theorem deleteNode_apart (h : node.outside scope = false) (t : DatedStore) :
    Apart scope t (t.deleteNode node) := by
  refine ⟨rfl, ?_, rfl⟩
  rw [DatedStore.deleteNode, Keyed.deleteWhere_rows, List.filter_filter]
  refine List.filter_congr fun r _ => ?_
  cases hnode : r.node == node with
  | false => rw [Bool.not_false, Bool.and_true]
  | true => rw [beq_iff_eq.mp hnode, h, Bool.false_and]

theorem putDocument_apart {doc : Document} (h : doc.node.outside scope = false) (t : DatedStore) :
    Apart scope t (t.putDocument now doc) := by
  refine ⟨rfl, @Keyed.filter_upsert _ _ DatedDocument.node _ doc.node
    (fun old => ⟨{ doc with node := old.node }, now t.clockReads⟩) (fun _ => rfl)
    ⟨doc, now t.clockReads⟩ rfl t.documents _ fun r hr => ?_, rfl⟩
  rw [hr]
  exact h

theorem refreshNode_apart (h : node.outside scope = false) (t : DatedStore) :
    Apart scope t (t.refreshNode g now node) := by
  unfold DatedStore.refreshNode
  split
  · exact deleteNode_apart h t
  · exact putDocument_apart h t

theorem setStale_apart {summaryId : Nat} (h : node.outside scope = false)
    (hid : (selectCurrentSummary t.summaries.rows node).id = some summaryId) :
    Apart scope t (t.setStale summaryId) := by
  obtain ⟨r, hr, hrid, -⟩ := selectFrom_id hid
  obtain ⟨hr, hnode⟩ := mem_versionsOf.mp hr
  refine ⟨?_, rfl, rfl⟩
  rw [DatedStore.setStale, Numbered.update_rows, List.filter_map]
  have hpred : ((fun r : SummaryVersion => r.node.outside scope) ∘
      fun r => if r.id = summaryId then { r with status := .stale } else r) =
      fun r => r.node.outside scope := by
    funext r
    rw [Function.comp_apply]
    split <;> rfl
  rw [hpred]
  refine (List.map_congr_left fun r' hr' => ?_).trans (List.map_id _)
  obtain ⟨hmem, hout⟩ := List.mem_filter.mp hr'
  refine if_neg fun hsame => ?_
  rw [t.summaries.eq_of_number hmem hr (hsame.trans hrid.symm), hnode, h] at hout
  exact Bool.noConfusion hout

theorem staleIf_apart (h : node.outside scope = false) (changed : Bool) (t : DatedStore) :
    Apart scope t (t.staleIf g now changed node) := by
  cases changed with
  | false => exact .refl scope t
  | true =>
    change Apart scope t (t.markCurrentSummaryStale g now node)
    unfold DatedStore.markCurrentSummaryStale
    split
    · exact refreshNode_apart h t
    · next hid => exact (setStale_apart h hid).trans (refreshNode_apart h _)

theorem formCluster_apart (before : Database) (existing : List String) (t : DatedStore)
    {k : NewCluster} (hk : scope.contains (clusterGroup k.name) = true) :
    Apart scope t (t.formCluster g now before existing k) := by
  have hout := clusterNode_outside hk
  have hinsert : Apart scope t { t with
      index := insertCluster t.index k
      counters := t.counters.insertOrIgnore ⟨clusterNode k.name, 0, 0, none⟩ } :=
    ⟨rfl, rfl, Keyed.filter_insertOrIgnore _ hout⟩
  exact hinsert.trans ((staleIf_apart hout _ _).trans (refreshNode_apart hout _))

theorem foldl_formCluster_apart (now : Nat → String) (before : Database) (existing : List String)
    (clusters : List NewCluster) (t : DatedStore)
    (hscope : ∀ k ∈ clusters, scope.contains (clusterGroup k.name) = true) :
    Apart scope t (clusters.foldl (DatedStore.formCluster g now before existing) t) := by
  induction clusters generalizing t with
  | nil => exact .refl scope t
  | cons k clusters ih =>
    obtain ⟨hk, hrest⟩ := List.forall_mem_cons.mp hscope
    exact (formCluster_apart before existing t hk).trans (ih _ hrest)

theorem foldl_deleteNode_apart (names : List String) (t : DatedStore)
    (hscope : ∀ name ∈ names, scope.contains (clusterGroup name) = true) :
    Apart scope t (names.foldl (fun t name => t.deleteNode (clusterNode name)) t) := by
  induction names generalizing t with
  | nil => exact .refl scope t
  | cons name names ih =>
    obtain ⟨hname, hrest⟩ := List.forall_mem_cons.mp hscope
    exact (deleteNode_apart (clusterNode_outside hname) t).trans (ih _ hrest)

theorem detectClustersFor_apart (c : PostprocessConfig) (scope : List String) (t : DatedStore) :
    Apart scope t (t.detectClustersFor g now c scope) := by
  have hdrop : Apart scope t { t with index := dropClusters scope t.index } := ⟨rfl, rfl, rfl⟩
  have hform := hdrop.trans (foldl_formCluster_apart (g := g) now t.index
    (namesInScope scope t.index) (newClusters c scope t.index) _ fun k hk => (mem_newClusters hk).1)
  unfold DatedStore.detectClustersFor
  dsimp only
  generalize (newClusters c scope t.index).foldl (DatedStore.formCluster g now t.index
    (namesInScope scope t.index)) { t with index := dropClusters scope t.index } = u at hform
  have hgone := foldl_deleteNode_apart ((namesInScope scope t.index).filter
    fun name => !(namesInScope scope u.index).contains name) u fun name hname =>
      (mem_namesInScope.mp (List.mem_filter.mp hname).1).2
  generalize ((namesInScope scope t.index).filter fun name =>
    !(namesInScope scope u.index).contains name).foldl
    (fun t name => t.deleteNode (clusterNode name)) u = v at hgone
  refine (hform.trans hgone).trans ⟨rfl, rfl, ?_⟩
  rw [Keyed.deleteWhere_rows, List.filter_filter]
  refine List.filter_congr fun r _ => ?_
  rw [Node.outside]
  cases r.node.kind == NodeKind.cluster && scope.contains (clusterGroup r.node.ref) <;> rfl

/-- No row of a group outside the given ones is written. -/
structure Untouched (scope : List String) (t t' : DatedStore) : Prop where
  facts : SameButViews t.index t'.index
  files : t'.index.files = t.index.files
  clusters : t'.index.clusters.rows.filter (ClusterRow.outside scope) =
    t.index.clusters.rows.filter (ClusterRow.outside scope)
  members : t'.index.members.filter (MemberRow.outside scope t'.index) =
    t.index.members.filter (MemberRow.outside scope t.index)
  apart : Apart scope t t'

theorem detectClustersFor_untouched (c : PostprocessConfig) (scope : List String)
    (t : DatedStore) : Untouched scope t (t.detectClustersFor g now c scope) := by
  have hindex := @DatedStore.detectClustersFor_index g now c scope t
  refine ⟨?_, ?_, ?_, ?_, detectClustersFor_apart c scope t⟩
  · rw [hindex]
    exact detectClustersFor_same c scope _
  · rw [hindex]
    exact detectClustersFor_files c scope _
  · rw [hindex]
    exact (detectClustersFor_outside c scope _).1
  · rw [hindex]
    exact (detectClustersFor_outside c scope _).2

end Outside

section Again

/-- The facts of a cluster are its name. -/
def factsNamed (name : String) : FactDocument := clusterFacts ⟨0, name, "", 0⟩

theorem loadFactDocument_named {d : Database} (h : ∃ k ∈ d.clusters.rows, k.name = name) :
    loadFactDocument d (clusterNode name) = some (factsNamed name) := by
  obtain ⟨k, hk, hname⟩ := h
  rw [clusterNode, loadFactDocument]
  cases hfind : d.clusters.rows.find? (·.name == name) with
  | none => exact absurd (beq_iff_eq.mpr hname) (List.find?_eq_none.mp hfind k hk)
  | some found =>
    have hfound : found.name = name :=
      beq_iff_eq.mp (List.find?_some (p := fun k : ClusterRow => k.name == name) hfind)
    rw [Option.map_some, factsNamed, clusterFacts, hfound, clusterFacts]

/-- A cluster with its counter and with the document that is called for. -/
structure Standing (g : Digests) (t : DatedStore) (k : NewCluster) : Prop where
  counter : clusterNode k.name ∈ t.counters.rows.map ChangeCounter.node
  document : documentOf g (clusterNode k.name) (factsNamed k.name)
    (selectCurrentSummary t.summaries.rows (clusterNode k.name)) ∈
      t.documents.rows.map DatedDocument.document

/-- Everything beside the index and the times is as it was. -/
structure Kept (t t' : DatedStore) : Prop where
  summaries : t'.summaries = t.summaries
  counters : t'.counters = t.counters
  documents : t'.documents.rows.map DatedDocument.document =
    t.documents.rows.map DatedDocument.document

theorem Kept.trans {t t' t'' : DatedStore} (h : Kept t t') (h' : Kept t' t'') : Kept t t'' :=
  ⟨h'.summaries.trans h.summaries, h'.counters.trans h.counters, h'.documents.trans h.documents⟩

theorem Kept.standing {t t' : DatedStore} (h : Kept t t') {k : NewCluster}
    (hk : Standing g t k) : Standing g t' k :=
  ⟨h.counters ▸ hk.counter, by
    rw [h.documents, h.summaries]
    exact hk.document⟩

/-- A refresh writes the document that is there. -/
theorem refreshNode_kept (now : Nat → String) {t : DatedStore} {doc : Document} {facts : FactDocument} {node : Node}
    (hfacts : loadFactDocument t.index node = some facts)
    (hdoc : doc = documentOf g node facts (selectCurrentSummary t.summaries.rows node))
    (hmem : doc ∈ t.documents.rows.map DatedDocument.document) :
    Kept t (t.refreshNode g now node) := by
  obtain ⟨r, hr, hrdoc⟩ := List.mem_map.mp hmem
  have hrkey : r.node = doc.node := congrArg Document.node hrdoc
  unfold DatedStore.refreshNode
  rw [hfacts]
  dsimp only
  rw [← hdoc]
  refine ⟨rfl, rfl, @Keyed.map_upsert _ _ DatedDocument.node _ _ doc.node
    (fun old => ⟨{ doc with node := old.node }, now t.clockReads⟩) (fun _ => rfl)
    ⟨doc, now t.clockReads⟩ rfl t.documents DatedDocument.document ⟨r, hr, hrkey⟩
    fun r' hr' hkey => ?_⟩
  have hsame : r' = r := t.documents.eq_of_key hr' hr (hkey.trans hrkey.symm)
  rw [hsame, hrdoc, hrkey]

theorem formCluster_kept (now : Nat → String) {t : DatedStore} {k : NewCluster} (hk : Standing g t k)
    (hsame : (existing.contains k.name &&
      sortedSet (membersNamed k.name before) == sortedSet k.files) = true) :
    Kept t (t.formCluster g now before existing k) := by
  obtain ⟨r, hr, hnode⟩ := List.mem_map.mp hk.counter
  have hcounters : t.counters.insertOrIgnore ⟨clusterNode k.name, 0, 0, none⟩ = t.counters :=
    Keyed.insertOrIgnore_of_mem ⟨r, hr, hnode⟩
  have hfacts : loadFactDocument (insertCluster t.index k) (clusterNode k.name) =
      some (factsNamed k.name) := loadFactDocument_named
    ⟨k.row (t.index.clusters.last + 1), List.mem_append_right _ (List.mem_singleton_self _), rfl⟩
  have hrefresh := refreshNode_kept now
    (t := { t with index := insertCluster t.index k }) hfacts rfl hk.document
  unfold DatedStore.formCluster
  dsimp only
  rw [hsame, hcounters]
  exact ⟨hrefresh.summaries, hrefresh.counters, hrefresh.documents⟩

theorem foldl_formCluster_kept (now : Nat → String) (clusters : List NewCluster) (t : DatedStore)
    (hstanding : ∀ k ∈ clusters, Standing g t k)
    (hsame : ∀ k ∈ clusters, (existing.contains k.name &&
      sortedSet (membersNamed k.name before) == sortedSet k.files) = true) :
    Kept t (clusters.foldl (DatedStore.formCluster g now before existing) t) := by
  induction clusters generalizing t with
  | nil => exact ⟨rfl, rfl, rfl⟩
  | cons k clusters ih =>
    obtain ⟨hk, hrest⟩ := List.forall_mem_cons.mp hstanding
    obtain ⟨hsk, hsrest⟩ := List.forall_mem_cons.mp hsame
    have hstep := formCluster_kept now hk hsk
    exact hstep.trans (ih _ (fun k' hk' => hstep.standing (hrest k' hk')) hsrest)

/-- The members found under the name of a cluster are the files it was formed of. -/
theorem membersNamed_of_views {d : Database} {clusters : List NewCluster}
    (hviews : views d = clusters.map NewCluster.view)
    (hnames : (clusters.map NewCluster.name).Nodup) {k : NewCluster} (hk : k ∈ clusters) :
    membersNamed k.name d = k.files := by
  have hmembers : membersNamed k.name d =
      ((views d).filter fun v => v.name == k.name).flatMap ClusterView.files := by
    unfold membersNamed views
    rw [List.filter_map, List.flatMap_map]
    rfl
  have honly : clusters.filter (fun k' => k'.name == k.name) = [k] := by
    let table : Keyed NewCluster.name := ⟨clusters, hnames⟩
    have hfind : clusters.find? (fun k' => decide (k'.name = k.name)) = some k := by
      cases hfind : clusters.find? (fun k' => decide (k'.name = k.name)) with
      | none => exact absurd (decide_eq_true rfl) (List.find?_eq_none.mp hfind k hk)
      | some found =>
        have hfound := List.find?_some (p := fun k' : NewCluster => decide (k'.name = k.name)) hfind
        rw [table.eq_of_key (List.mem_of_find?_eq_some hfind) hk (of_decide_eq_true hfound)]
    have hfilter := table.filter_key k.name
    rw [hfind] at hfilter
    simp only [beq_eq_decide]
    exact hfilter
  rw [hmembers, hviews, List.filter_map]
  have hcomp : ((fun v : ClusterView => v.name == k.name) ∘ NewCluster.view) =
      fun k' : NewCluster => k'.name == k.name := rfl
  rw [hcomp, honly, List.map_singleton, List.flatMap_singleton]
  rfl

variable {t : DatedStore}

theorem foldl_formCluster_index_dated (g : Digests) (now : Nat → String) (before : Database)
    (existing : List String) (clusters : List NewCluster) (t : DatedStore) :
    (clusters.foldl (DatedStore.formCluster g now before existing) t).index =
      clusters.foldl insertCluster t.index := by
  have hstore := @DatedStore.store_foldl_formCluster g now before existing clusters t
  exact (congrArg Store.index hstore).trans (foldl_formCluster_index clusters t.store)

theorem foldl_deleteNode_dated (names : List String) (t : DatedStore) :
    (names.foldl (fun t name => t.deleteNode (clusterNode name)) t).index = t.index ∧
      (names.foldl (fun t name => t.deleteNode (clusterNode name)) t).summaries = t.summaries ∧
      (names.foldl (fun t name => t.deleteNode (clusterNode name)) t).counters = t.counters := by
  induction names generalizing t with
  | nil => exact ⟨rfl, rfl, rfl⟩
  | cons name names ih => exact ih (t.deleteNode (clusterNode name))

/-- After a detection every counter of a cluster in scope is of a formed one. -/
theorem detectClustersFor_counted {r : ChangeCounter}
    (hr : r ∈ (t.detectClustersFor g now c scope).counters.rows) (hkind : r.node.kind = .cluster)
    (hscope : scope.contains (clusterGroup r.node.ref) = true) :
    r.node.ref ∈ (newClusters c scope t.index).map NewCluster.name := by
  unfold DatedStore.detectClustersFor at hr
  obtain ⟨-, hkept⟩ := List.mem_filter.mp hr
  rw [foldl_formCluster_index_dated] at hkept
  refine (mem_current scope t.index).mp (List.contains_iff_mem.mp ?_)
  simpa [hkind, List.contains_iff_mem.mp hscope] using hkept

theorem detectClusters_standing (h : Referential t.index) {k : NewCluster}
    (hk : k ∈ newClusters c (allGroups t.index) t.index) :
    Standing g (t.detectClusters g now c) k := by
  have hstore := @DatedStore.store_detectClusters g now c t
  obtain ⟨hdoc, hcounter⟩ := detectClustersFor_formed (g := g) t.store hk
  have hindex : (t.detectClusters g now c).index = Index.detectClusters c t.index :=
    DatedStore.detectClustersFor_index c _ t
  have hnamed : ∃ r ∈ (t.detectClusters g now c).index.clusters.rows, r.name = k.name := by
    have hview := List.mem_map_of_mem (f := NewCluster.view) hk
    rw [← detectClusters_views h c] at hview
    obtain ⟨r, hr, heq⟩ := List.mem_map.mp hview
    rw [hindex]
    exact ⟨r, hr, (ClusterView.mk.inj heq).1⟩
  rw [show Store.detectClustersFor g c (allGroups t.index) t.store =
    (t.detectClusters g now c).store from hstore.symm] at hdoc hcounter
  refine ⟨hcounter, ?_⟩
  rw [Store.expected, show (t.detectClusters g now c).store.index =
    (t.detectClusters g now c).index from rfl, loadFactDocument_named hnamed, Option.map_some] at hdoc
  exact List.mem_of_find?_eq_some hdoc

theorem allGroups_again {c : PostprocessConfig} {d : Database} {group : String}
    (h : (allGroups (Index.detectClusters c d)).contains group = true) (href : Referential d) :
    (allGroups d).contains group = true := by
  rw [List.contains_iff_mem, allGroups, mem_sortedSet, List.mem_append] at h
  rcases h with h | h
  · rw [show (Index.detectClusters c d).files = d.files from detectClustersFor_files c _ d] at h
    exact List.contains_iff_mem.mpr (mem_sortedSet.mpr (List.mem_append_left _ h))
  · obtain ⟨r, hr, rfl⟩ := List.mem_map.mp h
    have hview : viewOf (Index.detectClusters c d) r ∈ views (Index.detectClusters c d) :=
      List.mem_map_of_mem hr
    rw [detectClusters_views href c] at hview
    obtain ⟨k, hk, heq⟩ := List.mem_map.mp hview
    rw [show r.name = k.name from (ClusterView.mk.inj heq).1.symm]
    exact (mem_newClusters hk).1

/-- Two stores with the same rows, but for the ids of clusters and the times of
their documents. -/
structure SameRows (t t' : DatedStore) : Prop where
  facts : SameButViews t.index t'.index
  files : t'.index.files = t.index.files
  clusters : views t'.index = views t.index
  members : t'.index.members.map MemberRow.filePath = t.index.members.map MemberRow.filePath
  kept : Kept t t'
  others : t'.documents.rows.filter (fun r => r.node.kind != .cluster) =
    t.documents.rows.filter fun r => r.node.kind != .cluster

/-- The names of the clusters that stand after a detection. -/
theorem detectClusters_names {d : Database} (href : Referential d) (c : PostprocessConfig) :
    (Index.detectClusters c d).clusters.rows.map ClusterRow.name =
      (newClusters c (allGroups d) d).map NewCluster.name := by
  have hmap := congrArg (List.map ClusterView.name) (detectClusters_views href c)
  rwa [views, List.map_map, List.map_map] at hmap

/-- Nothing is new to a detection that comes second. -/
theorem unchanged_again {d : Database} (href : Referential d) {k : NewCluster}
    (hk : k ∈ newClusters c (allGroups d) d) :
    ((namesInScope (allGroups (Index.detectClusters c d)) (Index.detectClusters c d)).contains k.name &&
      sortedSet (membersNamed k.name (Index.detectClusters c d)) == sortedSet k.files) = true := by
  have hname : k.name ∈ (Index.detectClusters c d).clusters.rows.map ClusterRow.name := by
    rw [detectClusters_names href]
    exact List.mem_map_of_mem hk
  have hscope : (allGroups (Index.detectClusters c d)).contains (clusterGroup k.name) = true := by
    obtain ⟨r, hr, hrk⟩ := List.mem_map.mp hname
    rw [← hrk]
    exact clusterGroup_mem_allGroups hr
  rw [membersNamed_of_views (detectClusters_views href c) (newClusters_nodup c _ d) hk,
    beq_self_eq_true, Bool.and_true]
  exact List.contains_iff_mem.mpr (mem_namesInScope.mpr ⟨hname, hscope⟩)

/-- A detection whose clusters all stand writes nothing that is not there. -/
theorem detectClustersFor_kept
    (hstanding : ∀ k ∈ newClusters c scope t.index, Standing g t k)
    (hsame : ∀ k ∈ newClusters c scope t.index, ((namesInScope scope t.index).contains k.name &&
      sortedSet (membersNamed k.name t.index) == sortedSet k.files) = true)
    (hnames : ∀ name ∈ namesInScope scope t.index,
      name ∈ (newClusters c scope t.index).map NewCluster.name)
    (hcounted : ∀ r ∈ t.counters.rows, r.node.kind = .cluster →
      scope.contains (clusterGroup r.node.ref) = true →
      r.node.ref ∈ (newClusters c scope t.index).map NewCluster.name) :
    Kept t (t.detectClustersFor g now c scope) := by
  have hform := foldl_formCluster_kept now (newClusters c scope t.index)
    { t with index := dropClusters scope t.index }
    (fun k hk => ⟨(hstanding k hk).counter, (hstanding k hk).document⟩) hsame
  have hformed := foldl_formCluster_index_dated g now t.index (namesInScope scope t.index)
    (newClusters c scope t.index) { t with index := dropClusters scope t.index }
  have hcurrent {name : String} : name ∈ namesInScope scope
      ((newClusters c scope t.index).foldl insertCluster (dropClusters scope t.index)) ↔
      name ∈ (newClusters c scope t.index).map NewCluster.name := mem_current scope t.index
  unfold DatedStore.detectClustersFor
  dsimp only
  generalize (newClusters c scope t.index).foldl (DatedStore.formCluster g now t.index
    (namesInScope scope t.index)) { t with index := dropClusters scope t.index } = v at hform hformed
  rw [← hformed] at hcurrent
  have hgone : (namesInScope scope t.index).filter
      (fun name => !(namesInScope scope v.index).contains name) = [] := by
    refine List.filter_eq_nil_iff.mpr fun name hname hout => ?_
    rw [List.contains_iff_mem.mpr (hcurrent.mpr (hnames name hname))] at hout
    exact Bool.noConfusion hout
  rw [hgone, List.foldl_nil]
  refine ⟨hform.summaries, ?_, hform.documents⟩
  rw [hform.counters]
  refine Keyed.ext (List.filter_eq_self.mpr fun r hr => ?_)
  beta_reduce
  by_cases hkind : r.node.kind = .cluster
  · by_cases hscope : scope.contains (clusterGroup r.node.ref) = true
    · rw [List.contains_iff_mem.mpr (hcurrent.mpr (hcounted r hr hkind hscope)), Bool.not_true,
        Bool.and_false]
      rfl
    · rw [Bool.eq_false_iff.mpr hscope, Bool.and_false, Bool.false_and]
      rfl
  · rw [show (r.node.kind == NodeKind.cluster) = false from beq_eq_false_iff_ne.mpr hkind,
      Bool.false_and, Bool.false_and]
    rfl

theorem detectClusters_again (h : Referential t.index) :
    SameRows (t.detectClusters g now c) ((t.detectClusters g now c).detectClusters g now c) := by
  have hindex : (t.detectClusters g now c).index = Index.detectClusters c t.index :=
    DatedStore.detectClustersFor_index c _ t
  have hnext : ((t.detectClusters g now c).detectClusters g now c).index =
      Index.detectClusters c (t.detectClusters g now c).index :=
    DatedStore.detectClustersFor_index c _ _
  have href : Referential (t.detectClusters g now c).index := by
    rw [hindex]
    exact h.detectClustersFor c _
  have hagain : newClusters c (allGroups (t.detectClusters g now c).index)
      (t.detectClusters g now c).index = newClusters c (allGroups t.index) t.index := by
    rw [hindex]
    exact newClusters_again c t.index
  refine ⟨?_, ?_, ?_, ?_, detectClustersFor_kept ?_ ?_ ?_ ?_,
    (detectClustersFor_apart c _ _).otherKinds⟩
  · rw [hnext]
    exact detectClustersFor_same c _ _
  · rw [hnext]
    exact detectClustersFor_files c _ _
  · rw [hnext, detectClusters_views href, hagain, hindex, detectClusters_views h]
  · rw [hnext, detectClusters_paths href, hagain, hindex, detectClusters_paths h]
  · rw [hagain]
    exact fun k hk => detectClusters_standing h hk
  · rw [hagain, hindex]
    exact fun k hk => unchanged_again h hk
  · rw [hagain, hindex, ← detectClusters_names h]
    exact fun name hname => (mem_namesInScope.mp hname).1
  · rw [hagain, hindex]
    exact fun r hr hkind hscope => detectClustersFor_counted hr hkind (allGroups_again hscope h)

/-- Whatever scans a store has been through, its members are of stored clusters. -/
theorem Scanned.referential {s : Store} (hs : Scanned g s) : Referential s.index :=
  hs.steady.clustered.referential

/-- Detection over all groups partitions the files, does so again without a new
row, and over some groups leaves all others alone. -/
theorem detection_partitions (g : Digests) (now : Nat → String) (c : PostprocessConfig)
    (t : DatedStore) (h : Referential t.index) :
    Partition c (t.detectClusters g now c).index ∧
      SameRows (t.detectClusters g now c) ((t.detectClusters g now c).detectClusters g now c) ∧
      ∀ scope, Untouched scope t (t.detectClustersFor g now c scope) := by
  refine ⟨?_, detectClusters_again h, fun scope => detectClustersFor_untouched c scope t⟩
  rw [DatedStore.detectClusters, DatedStore.detectClustersFor_index]
  exact detectClusters_partition h c

end Again

section Example

def packageFile (path : String) : FileRow where
  path := path
  structHash := ""
  language := none
  layer := none
  imports := none
  importBindings := "[]"
  kindHint := none
  identity := ⟨"", "", ""⟩

def packagePaths : List String :=
  ["p/a", "p/b", "p/c", "p/d", "p/e", "p/f", "p/g", "p/h", "p/i", "p/j"]

/-- Ten files with an edge between two of them, which are a cluster so far. -/
def packageIndex : Database :=
  { Database.empty with
    files := ⟨packagePaths.map packageFile, by decide⟩
    edges := Numbered.empty.insert (fun id =>
      { id := id
        sourceFile := "p/a"
        caller := "main"
        callee := "run"
        calleeFile := some "p/b"
        calleeQualified := some "p/b::run"
        line := none
        provenance := some .definite
        synthesizedFrom := none
        via := none
        callForm := .name }) fun _ => rfl
    clusters := Numbered.empty.insert (fun id => ⟨id, "p", "[]", 2⟩) fun _ => rfl
    members := [⟨1, "p/a"⟩, ⟨1, "p/b"⟩] }

def packageStore : DatedStore := ⟨packageIndex, .empty, .empty, .empty, 0⟩

/-- The threshold that `0.1` is read as. -/
def tenthConfig : PostprocessConfig :=
  { PostprocessConfig.default with
    clusterDensityThreshold := 3602879701896397 / 36028797018963968
    clusterDensityThreshold_range := by decide +kernel }

def tickingClock (reads : Nat) : String := if reads < 2 then "09:00:00" else "09:00:01"

def packageDetected : DatedStore :=
  packageStore.detectClusters plainDigests tickingClock tenthConfig

theorem detection_partitions_package : Referential packageStore.index ∧
    Partition tenthConfig packageDetected.index := by
  have href : Referential packageStore.index := by decide +kernel
  exact ⟨href, (detection_partitions plainDigests tickingClock tenthConfig packageStore href).1⟩

/-- One edge among ten files has a quotient that is no less than the threshold
only once it is rounded, and the second detection writes another time. -/
theorem detection_stamps_again :
    (∃ k ∈ packageDetected.index.clusters.rows,
      (internalEdgeCount (membersOf k.id packageDetected.index) packageDetected.index : Rat) /
        (membersOf k.id packageDetected.index).length < tenthConfig.clusterDensityThreshold) ∧
      (packageDetected.detectClusters plainDigests tickingClock tenthConfig).documents.rows ≠
        packageDetected.documents.rows := by
  decide +kernel

end Example

end RemyCC.Retrieval
