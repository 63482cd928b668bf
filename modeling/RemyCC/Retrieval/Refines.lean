import RemyCC.Retrieval.Store
import RemyCC.Index.Tracking

/-!
# The index under its summaries and documents

Nothing that a scan does to summaries and documents reaches the facts: beside
them the index goes through the states that it has on its own.
-/

namespace RemyCC.Retrieval

open Relational Text Index

variable {g : Digests} {s : Store} {node : Node}

namespace Store

@[simp]
theorem deleteNode_index (s : Store) (node : Node) : (s.deleteNode node).index = s.index := rfl

@[simp]
theorem deleteNode_summaries (s : Store) (node : Node) :
    (s.deleteNode node).summaries = s.summaries := rfl

@[simp]
theorem deleteNode_counters (s : Store) (node : Node) :
    (s.deleteNode node).counters = s.counters := rfl

@[simp]
theorem refreshNode_index (g : Digests) (s : Store) (node : Node) :
    (s.refreshNode g node).index = s.index := by
  unfold refreshNode
  split <;> rfl

@[simp]
theorem refreshNode_summaries (g : Digests) (s : Store) (node : Node) :
    (s.refreshNode g node).summaries = s.summaries := by
  unfold refreshNode
  split <;> rfl

@[simp]
theorem refreshNode_counters (g : Digests) (s : Store) (node : Node) :
    (s.refreshNode g node).counters = s.counters := by
  unfold refreshNode
  split <;> rfl

@[simp]
theorem setStale_index (s : Store) (summaryId : Nat) : (s.setStale summaryId).index = s.index := rfl

@[simp]
theorem markCurrentSummaryStale_index (g : Digests) (s : Store) (node : Node) :
    (s.markCurrentSummaryStale g node).index = s.index := by
  unfold markCurrentSummaryStale
  split
  · rw [refreshNode_index]
  · rw [refreshNode_index, setStale_index]

@[simp]
theorem markCurrentSummaryStale_counters (g : Digests) (s : Store) (node : Node) :
    (s.markCurrentSummaryStale g node).counters = s.counters := by
  unfold markCurrentSummaryStale
  split
  · rw [refreshNode_counters]
  · rw [refreshNode_counters]
    rfl

@[simp]
theorem insertSummary_index (node : Node) (version : Nat) (summary : Option String)
    (status : Status) (s : Store) :
    (s.insertSummary node version summary status).index = s.index := rfl

@[simp]
theorem insertSummary_counters (node : Node) (version : Nat) (summary : Option String)
    (status : Status) (s : Store) :
    (s.insertSummary node version summary status).counters = s.counters := rfl

@[simp]
theorem addInitial_index (node : Node) (version : Nat) (short : Option String) (s : Store) :
    (s.addInitial node version short).index = s.index := by
  cases short <;> rfl

@[simp]
theorem addInitial_counters (node : Node) (version : Nat) (short : Option String) (s : Store) :
    (s.addInitial node version short).counters = s.counters := by
  cases short <;> rfl

@[simp]
theorem staleIf_index (g : Digests) (changed : Bool) (node : Node) (s : Store) :
    (s.staleIf g changed node).index = s.index := by
  cases changed
  · rfl
  · exact markCurrentSummaryStale_index g s node

@[simp]
theorem staleIf_counters (g : Digests) (changed : Bool) (node : Node) (s : Store) :
    (s.staleIf g changed node).counters = s.counters := by
  cases changed
  · rfl
  · exact markCurrentSummaryStale_counters g s node

theorem foldl_deleteNode {α : Type} (nodes : α → Node) (list : List α) (s : Store) :
    (list.foldl (fun s a => s.deleteNode (nodes a)) s).index = s.index ∧
      (list.foldl (fun s a => s.deleteNode (nodes a)) s).summaries = s.summaries ∧
      (list.foldl (fun s a => s.deleteNode (nodes a)) s).counters = s.counters := by
  induction list generalizing s with
  | nil => exact ⟨rfl, rfl, rfl⟩
  | cons a list ih => exact ih _

end Store

section Write

variable {filterSmall : Bool} {f : FileFacts}

theorem writeSymbol_index (old : List SymbolRow) (versions : List SummaryVersion) (s : Store)
    (symbol : SymbolInfo) :
    (writeSymbol g filterSmall f old versions s symbol).index =
      insertSymbol s.index (f.symbolRow g.toHashes symbol) := by
  simp only [writeSymbol]
  split
  · rw [Store.refreshNode_index]
  · rw [Store.refreshNode_index, Store.addInitial_index, Store.staleIf_index]

theorem writeSymbol_counters (old : List SymbolRow) (versions : List SummaryVersion) (s : Store)
    (symbol : SymbolInfo) :
    (writeSymbol g filterSmall f old versions s symbol).counters = s.counters := by
  simp only [writeSymbol]
  split
  · rw [Store.refreshNode_counters]
  · rw [Store.refreshNode_counters, Store.addInitial_counters, Store.staleIf_counters]

theorem foldl_writeSymbol (old : List SymbolRow) (versions : List SummaryVersion)
    (symbols : List SymbolInfo) (s : Store) :
    (symbols.foldl (writeSymbol g filterSmall f old versions) s).index =
        (symbols.map (f.symbolRow g.toHashes)).foldl insertSymbol s.index ∧
      (symbols.foldl (writeSymbol g filterSmall f old versions) s).counters = s.counters := by
  induction symbols generalizing s with
  | nil => exact ⟨rfl, rfl⟩
  | cons symbol symbols ih =>
    rw [List.foldl_cons, List.map_cons, List.foldl_cons, (ih _).1, (ih _).2, writeSymbol_index,
      writeSymbol_counters]
    exact ⟨rfl, rfl⟩

theorem insertSymbol_fresh {d : Database} {row : SymbolRow}
    (h : ∀ r ∈ d.symbols.rows, r.key ≠ row.key) :
    (insertSymbol d row).symbols.rows = d.symbols.rows ++ [row] := by
  unfold insertSymbol Keyed.insertOrIgnore
  rw [dif_neg]
  · rfl
  · rintro ⟨r, hr, hkey⟩
    exact h r hr hkey

theorem foldl_insertSymbol (rows : List SymbolRow) (d : Database)
    (hrows : (rows.map SymbolRow.key).Nodup)
    (hfresh : ∀ r ∈ rows, ∀ s ∈ d.symbols.rows, s.key ≠ r.key) :
    rows.foldl insertSymbol d = { d with symbols := d.symbols.append rows hrows hfresh } := by
  suffices hall : rows.foldl insertSymbol d = { d with symbols := (rows.foldl insertSymbol d).symbols } ∧
      (rows.foldl insertSymbol d).symbols.rows = d.symbols.rows ++ rows by
    rw [hall.1]
    congr 1
    exact Keyed.ext hall.2
  induction rows generalizing d with
  | nil => exact ⟨rfl, (List.append_nil _).symm⟩
  | cons row rows ih =>
    obtain ⟨hnew, hrest⟩ := List.nodup_cons.mp hrows
    obtain ⟨hrow, hfresh⟩ := List.forall_mem_cons.mp hfresh
    have hstep := insertSymbol_fresh hrow
    obtain ⟨hsame, hsymbols⟩ := ih (insertSymbol d row) hrest (by
      intro r hr s hs
      rw [hstep] at hs
      rcases List.mem_append.mp hs with hs | hs
      · exact hfresh r hr s hs
      · rw [List.mem_singleton.mp hs]
        exact fun heq => hnew (heq ▸ List.mem_map_of_mem hr))
    rw [List.foldl_cons]
    refine ⟨hsame, ?_⟩
    rw [hsymbols, hstep, List.append_assoc]
    rfl

theorem addSymbols_eq (h : Hashes) (f : FileFacts) (d : Database)
    (hfresh : ∀ s ∈ d.symbols.rows, s.filePath ≠ f.relPath) :
    (f.canonicalSymbols.map (f.symbolRow h)).foldl insertSymbol d = d.addSymbols h f hfresh :=
  foldl_insertSymbol _ _ _ _

theorem write_index (filterSmall : Bool) (f : FileFacts) (s : Store) :
    (s.write g filterSmall f).index = (writeFileFacts g.toHashes f s.index).1 := by
  unfold Store.write writeFileFacts
  split
  · rfl
  · simp only [Store.refreshNode_index, Store.staleIf_index, (Store.foldl_deleteNode _ _ _).1,
      (foldl_writeSymbol _ _ _ _).1]
    rw [addSymbols_eq g.toHashes f (startWrite f s.index) fun _ =>
      Database.dropFacts_symbols_ne (d := s.index.upsertFile f)]
    rfl

theorem delete_index (path : String) (s : Store) :
    (s.delete path).index = (deleteFile path s.index).1 := by
  simp only [Store.delete, Store.deleteNode_index, (Store.foldl_deleteNode _ _ _).1]

end Write

section Clusters

variable {before : Database} {existing : List String} {c : PostprocessConfig}

theorem formCluster_index (s : Store) (k : NewCluster) :
    (formCluster g before existing s k).index = insertCluster s.index k := by
  simp only [formCluster, Store.refreshNode_index, Store.staleIf_index]

theorem foldl_formCluster_index (clusters : List NewCluster) (s : Store) :
    (clusters.foldl (formCluster g before existing) s).index =
      clusters.foldl insertCluster s.index := by
  induction clusters generalizing s with
  | nil => rfl
  | cons k clusters ih => rw [List.foldl_cons, List.foldl_cons, ih, formCluster_index]

theorem detectClustersFor_index (c : PostprocessConfig) (scope : List String) (s : Store) :
    (s.detectClustersFor g c scope).index = Index.detectClustersFor c scope s.index := by
  unfold Store.detectClustersFor Index.detectClustersFor
  simp only [(Store.foldl_deleteNode _ _ _).1, foldl_formCluster_index]

theorem run_index (c : PostprocessConfig) (s : Store) :
    (s.run g c).index = Index.run c s.index := by
  unfold Store.run Store.detectClusters
  rw [detectClustersFor_index]
  rfl

theorem runIncremental_index (c : PostprocessConfig) (delta : ScanDelta) (s : Store) :
    (s.runIncremental g c delta).index = Index.runIncremental c delta s.index := by
  unfold Store.runIncremental
  rw [detectClustersFor_index]
  rfl

end Clusters

section Scans

variable {filterSmall : Bool}

theorem applyOp_index (op : FileOp) (s : Store) (delta : ScanDelta) :
    (s.applyOp g filterSmall op).index = (Index.applyOp g.toHashes (s.index, delta) op).1 := by
  rw [applyOp_fst]
  cases op with
  | write f => exact write_index filterSmall f s
  | delete path => exact delete_index path s

theorem applyOps_index (ops : List FileOp) (s : Store) :
    (s.applyOps g filterSmall ops).index = (Index.applyOps g.toHashes ops s.index).1 := by
  unfold Store.applyOps Index.applyOps
  suffices ∀ delta : ScanDelta, (ops.foldl (Store.applyOp g filterSmall) s).index =
      (ops.foldl (Index.applyOp g.toHashes) (s.index, delta)).1 from this .empty
  induction ops generalizing s with
  | nil => exact fun _ => rfl
  | cons op ops ih =>
    intro delta
    rw [List.foldl_cons, List.foldl_cons, ih _ (Index.applyOp g.toHashes (s.index, delta) op).2,
      applyOp_index op s delta]

/-- A full scan of the store is one of its index. -/
theorem scanFull_index (c : PostprocessConfig) (src : Sources) (delivered : List FileOutcome)
    (s : Store) :
    (s.scanFull g filterSmall c src delivered).index =
      Index.scanFull g.toHashes src c delivered s.index := by
  unfold Store.scanFull Index.scanFull scanFully
  rw [run_index, applyOps_index]

theorem scanFiles_index (c : PostprocessConfig) (src : Sources) (requested : List String)
    (delivered : List FileOutcome) (s : Store) :
    (s.scanFiles g filterSmall c src requested delivered).index =
      Index.scanFiles g.toHashes src c requested delivered s.index := by
  unfold Store.scanFiles Index.scanFiles scanIncrementally
  rw [runIncremental_index, applyOps_index]

end Scans

end RemyCC.Retrieval
