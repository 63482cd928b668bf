import RemyCC.Retrieval.Refines

/-!
# Detection with times and counts

The tables that a detection writes with all their columns: a document has the
time that it was written at, a change counter its counts. Every time a document
is written the clock is read.
-/

namespace RemyCC.Retrieval

open Relational Text Index

structure DatedDocument where
  document : Document
  updatedAt : String
  deriving DecidableEq, Repr

def DatedDocument.node (r : DatedDocument) : Node := r.document.node

theorem DatedDocument.document_node (r : DatedDocument) : r.document.node = r.node := rfl

structure ChangeCounter where
  node : Node
  childChangeCount : Nat
  leafDescendantCount : Nat
  lastForceRecomputeAt : Option String
  deriving DecidableEq, Repr

theorem ChangeCounter.id_node (r : ChangeCounter) : id r.node = r.node := rfl

structure DatedStore where
  index : Database
  summaries : Numbered SummaryVersion.id
  documents : Keyed DatedDocument.node
  counters : Keyed ChangeCounter.node
  clockReads : Nat

namespace DatedStore

/-- The store without times and counts. -/
def store (t : DatedStore) : Store where
  index := t.index
  summaries := t.summaries
  documents := t.documents.image DatedDocument.document DatedDocument.document_node
  counters := t.counters.image ChangeCounter.node ChangeCounter.id_node

def deleteNode (t : DatedStore) (node : Node) : DatedStore :=
  { t with documents := t.documents.deleteWhere fun r => r.node == node }

section Operations

variable (g : Digests) (now : Nat → String)

def putDocument (t : DatedStore) (doc : Document) : DatedStore :=
  { t with
    documents := t.documents.upsert doc.node
      (fun old => ⟨{ doc with node := old.node }, now t.clockReads⟩) (fun _ => rfl)
      ⟨doc, now t.clockReads⟩ rfl
    clockReads := t.clockReads + 1 }

/-- `refresh_node`: the clock is read after the facts and the summary. -/
def refreshNode (t : DatedStore) (node : Node) : DatedStore :=
  match loadFactDocument t.index node with
  | none => t.deleteNode node
  | some facts =>
    t.putDocument now (documentOf g node facts (selectCurrentSummary t.summaries.rows node))

theorem setStale_id (summaryId : Nat) (r : SummaryVersion) :
    (if r.id = summaryId then { r with status := .stale } else r).id = r.id := by
  split <;> rfl

def setStale (t : DatedStore) (summaryId : Nat) : DatedStore :=
  { t with
    summaries := t.summaries.update
      (fun r => if r.id = summaryId then { r with status := .stale } else r)
      (setStale_id summaryId) }

def markCurrentSummaryStale (t : DatedStore) (node : Node) : DatedStore :=
  match (selectCurrentSummary t.summaries.rows node).id with
  | none => t.refreshNode g now node
  | some summaryId => (t.setStale summaryId).refreshNode g now node

def staleIf (changed : Bool) (node : Node) (t : DatedStore) : DatedStore :=
  if changed then t.markCurrentSummaryStale g now node else t

def formCluster (before : Database) (existing : List String) (t : DatedStore) (k : NewCluster) :
    DatedStore :=
  let node := clusterNode k.name
  let t := { t with
    index := insertCluster t.index k
    counters := t.counters.insertOrIgnore ⟨node, 0, 0, none⟩ }
  let unchanged := existing.contains k.name &&
    sortedSet (membersNamed k.name before) == sortedSet k.files
  (t.staleIf g now (!unchanged) node).refreshNode g now node

def detectClustersFor (c : PostprocessConfig) (scope : List String) (t : DatedStore) : DatedStore :=
  let before := t.index
  let existing := namesInScope scope before
  let t := (newClusters c scope before).foldl (formCluster g now before existing)
    { t with index := dropClusters scope before }
  let current := namesInScope scope t.index
  let t := (existing.filter fun name => !current.contains name).foldl
    (fun t name => t.deleteNode (clusterNode name)) t
  { t with
    counters := t.counters.deleteWhere fun r => r.node.kind == .cluster &&
      scope.contains (clusterGroup r.node.ref) && !current.contains r.node.ref }

def detectClusters (c : PostprocessConfig) (t : DatedStore) : DatedStore :=
  t.detectClustersFor g now c (allGroups t.index)

end Operations

section Undated

variable {g : Digests} {now : Nat → String}

theorem store_deleteNode (t : DatedStore) (node : Node) :
    (t.deleteNode node).store = t.store.deleteNode node := by
  have hrows : (t.documents.deleteWhere fun r => r.node == node).image DatedDocument.document
      DatedDocument.document_node = t.store.documents.deleteWhere fun doc => doc.node == node :=
    Keyed.image_deleteWhere _ _ fun _ => rfl
  exact congrArg (fun documents => ({ t.store with documents := documents } : Store)) hrows

theorem store_putDocument (t : DatedStore) (doc : Document) :
    (t.putDocument now doc).store = t.store.putDocument doc := by
  have hrows : (t.documents.upsert doc.node
      (fun old => ⟨{ doc with node := old.node }, now t.clockReads⟩) (fun _ => rfl)
      ⟨doc, now t.clockReads⟩ rfl).image DatedDocument.document DatedDocument.document_node =
        t.store.documents.upsert doc.node (fun old => { doc with node := old.node })
          (fun _ => rfl) doc rfl :=
    Keyed.image_upsert _ _ _ _ _ _ (fun _ => rfl) rfl
  exact congrArg (fun documents => ({ t.store with documents := documents } : Store)) hrows

theorem store_refreshNode (t : DatedStore) (node : Node) :
    (t.refreshNode g now node).store = t.store.refreshNode g node := by
  unfold refreshNode Store.refreshNode
  rw [show t.store.index = t.index from rfl]
  cases loadFactDocument t.index node with
  | none => exact store_deleteNode t node
  | some facts => exact store_putDocument t _

theorem store_markCurrentSummaryStale (t : DatedStore) (node : Node) :
    (t.markCurrentSummaryStale g now node).store = t.store.markCurrentSummaryStale g node := by
  unfold markCurrentSummaryStale Store.markCurrentSummaryStale
  rw [show t.store.summaries = t.summaries from rfl]
  cases (selectCurrentSummary t.summaries.rows node).id with
  | none => exact store_refreshNode t node
  | some summaryId => exact store_refreshNode (t.setStale summaryId) node

theorem store_staleIf (changed : Bool) (t : DatedStore) (node : Node) :
    (t.staleIf g now changed node).store = t.store.staleIf g changed node := by
  cases changed with
  | false => rfl
  | true => exact store_markCurrentSummaryStale t node

theorem store_formCluster (before : Database) (existing : List String) (t : DatedStore)
    (k : NewCluster) :
    (t.formCluster g now before existing k).store =
      Retrieval.formCluster g before existing t.store k := by
  unfold formCluster Retrieval.formCluster
  rw [store_refreshNode, store_staleIf]
  simp only [store, Keyed.image_insertOrIgnore]

theorem store_foldl_formCluster (before : Database) (existing : List String)
    (clusters : List NewCluster) (t : DatedStore) :
    (clusters.foldl (formCluster g now before existing) t).store =
      clusters.foldl (Retrieval.formCluster g before existing) t.store := by
  induction clusters generalizing t with
  | nil => rfl
  | cons k clusters ih => rw [List.foldl_cons, ih, store_formCluster, List.foldl_cons]

theorem store_foldl_deleteNode (names : List String) (t : DatedStore) :
    (names.foldl (fun t name => t.deleteNode (clusterNode name)) t).store =
      names.foldl (fun s name => s.deleteNode (clusterNode name)) t.store := by
  induction names generalizing t with
  | nil => rfl
  | cons name names ih => rw [List.foldl_cons, ih, store_deleteNode, List.foldl_cons]

/-- Times and counts aside, a detection is the one of the store. -/
theorem store_detectClustersFor (c : PostprocessConfig) (scope : List String) (t : DatedStore) :
    (t.detectClustersFor g now c scope).store = t.store.detectClustersFor g c scope := by
  have hdrop : ({ t with index := dropClusters scope t.index } : DatedStore).store =
      { t.store with index := dropClusters scope t.store.index } := rfl
  have hform := @store_foldl_formCluster g now t.index (namesInScope scope t.index)
    (newClusters c scope t.index) { t with index := dropClusters scope t.index }
  unfold detectClustersFor Store.detectClustersFor
  dsimp only
  rw [hdrop] at hform
  rw [show t.store.index = t.index from rfl] at hform ⊢
  rw [← hform]
  generalize (newClusters c scope t.index).foldl
    (formCluster g now t.index (namesInScope scope t.index))
    { t with index := dropClusters scope t.index } = u
  rw [show u.store.index = u.index from rfl, ← store_foldl_deleteNode]
  generalize (((namesInScope scope t.index).filter fun name =>
    !(namesInScope scope u.index).contains name).foldl
    (fun t name => t.deleteNode (clusterNode name)) u) = v
  have hrows : (v.counters.deleteWhere fun r => r.node.kind == .cluster &&
      scope.contains (clusterGroup r.node.ref) &&
      !(namesInScope scope u.index).contains r.node.ref).image ChangeCounter.node
      ChangeCounter.id_node = v.store.counters.deleteWhere fun node => node.kind == .cluster &&
      scope.contains (clusterGroup node.ref) && !(namesInScope scope u.index).contains node.ref :=
    Keyed.image_deleteWhere _ _ fun _ => rfl
  exact congrArg (fun counters => ({ v.store with counters := counters } : Store)) hrows

theorem store_detectClusters (c : PostprocessConfig) (t : DatedStore) :
    (t.detectClusters g now c).store = t.store.detectClusters g c :=
  store_detectClustersFor c (allGroups t.index) t

theorem detectClustersFor_index (c : PostprocessConfig) (scope : List String) (t : DatedStore) :
    (t.detectClustersFor g now c scope).index = Index.detectClustersFor c scope t.index := by
  have hstore := congrArg Store.index (@store_detectClustersFor g now c scope t)
  exact hstore.trans (Retrieval.detectClustersFor_index c scope t.store)

end Undated

end DatedStore

end RemyCC.Retrieval
