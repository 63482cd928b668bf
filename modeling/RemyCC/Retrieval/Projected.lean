import Mathlib.Data.List.Find
import RemyCC.Index.Formed
import RemyCC.Retrieval.Lookups

/-!
# Documents follow facts and summaries

The document of a node is the expected one as long as every change of what is
expected at a node comes with a refresh or a deletion there.
-/

namespace RemyCC.Retrieval

open Relational Text Index

/-- Every node has the document that its facts and its current summary call for. -/
def Projected (g : Digests) (s : Store) : Prop := ∀ node, s.document? node = s.expected g node

/-- A change that is seen at some nodes only. -/
def Confined (g : Digests) (nodes : Node → Prop) (s s' : Store) : Prop :=
  ∀ node, ¬nodes node → s'.document? node = s.document? node ∧ s'.expected g node = s.expected g node

/-- A change of what is known of one node, with its document written anew. -/
structure Refreshed (g : Digests) (node : Node) (s s' : Store) : Prop where
  self : s'.document? node = s'.expected g node
  others : Confined g (· = node) s s'

variable {g : Digests} {s s' s'' : Store} {node other : Node} {nodes : Node → Prop}

theorem Confined.refl (nodes : Node → Prop) (s : Store) : Confined g nodes s s := fun _ _ => ⟨rfl, rfl⟩

theorem Confined.trans (h : Confined g nodes s s') (h' : Confined g nodes s' s'') :
    Confined g nodes s s'' := fun node hnode =>
  ⟨(h' node hnode).1.trans (h node hnode).1, (h' node hnode).2.trans (h node hnode).2⟩

theorem Confined.mono {nodes' : Node → Prop} (h : Confined g nodes s s')
    (hsub : ∀ node, nodes node → nodes' node) : Confined g nodes' s s' := fun node hnode =>
  h node fun hn => hnode (hsub node hn)

section Steps

theorem document?_deleteNode :
    (s.deleteNode node).document? other = if other = node then none else s.document? other :=
  s.documents.find?_deleteWhere node other

theorem document?_putDocument {doc : Document} :
    (s.putDocument doc).document? other = if other = doc.node then some doc else s.document? other := by
  have hedit (old : Document) : ({ doc with node := old.node } : Document).node = old.node := rfl
  refine (Keyed.find?_upsert hedit rfl s.documents other).trans ?_
  split
  · cases hfind : s.documents.rows.find? (fun r => decide (r.node = doc.node)) with
    | none => rfl
    | some found =>
      have hfound := List.find?_some hfind
      rw [Option.map_some, Option.getD_some, of_decide_eq_true hfound]
  · rfl

theorem document?_refreshNode :
    (s.refreshNode g node).document? other =
      if other = node then s.expected g node else s.document? other := by
  unfold Store.refreshNode Store.expected
  cases loadFactDocument s.index node with
  | none => exact document?_deleteNode
  | some facts => exact document?_putDocument

theorem expected_of_same (hindex : s'.index = s.index) (hsummaries : s'.summaries = s.summaries)
    (node : Node) : s'.expected g node = s.expected g node := by
  unfold Store.expected
  rw [hindex, hsummaries]

theorem refreshNode_refreshed (g : Digests) (s : Store) (node : Node) :
    Refreshed g node s (s.refreshNode g node) where
  self := by
    rw [document?_refreshNode, if_pos rfl]
    exact (expected_of_same (by simp) (by simp) node).symm
  others := fun other hother =>
    ⟨by rw [document?_refreshNode, if_neg hother], expected_of_same (by simp) (by simp) other⟩

theorem deleteNode_confined (s : Store) (node : Node) :
    Confined g (· = node) s (s.deleteNode node) := fun other hother =>
  ⟨by rw [document?_deleteNode, if_neg hother], expected_of_same rfl rfl other⟩

/-- A node is refreshed after a change that only it can see. -/
theorem Confined.refreshed (h : Confined g (· = node) s s') :
    Refreshed g node s (s'.refreshNode g node) where
  self := (refreshNode_refreshed g s' node).self
  others := h.trans (refreshNode_refreshed g s' node).others

theorem selectFrom_id {rows : List SummaryVersion} {id : Nat} (h : (selectFrom rows).id = some id) :
    ∃ r ∈ rows, r.id = id ∧ r.status.available = true ∧ (selectFrom rows).version = some r.version := by
  induction rows with
  | nil => cases h
  | cons r rows ih =>
    rw [selectFrom] at h ⊢
    split at h
    · cases h
    · next hstale =>
      rw [if_neg hstale]
      split at h
      · next havailable =>
        rw [if_pos havailable]
        cases hread : r.summary.bind readPayload with
        | some payload =>
          obtain ⟨short, full⟩ := payload
          rw [hread] at h
          cases h
          exact ⟨r, List.mem_cons_self, rfl, havailable, rfl⟩
        | none =>
          rw [hread] at h
          obtain ⟨r', hr', hrest⟩ := ih h
          exact ⟨r', List.mem_cons_of_mem r hr', hrest⟩
      · next havailable =>
        rw [if_neg havailable]
        obtain ⟨r', hr', hrest⟩ := ih h
        exact ⟨r', List.mem_cons_of_mem r hr', hrest⟩

theorem mem_versionsOf {rows : List SummaryVersion} {r : SummaryVersion} :
    r ∈ versionsOf node rows ↔ r ∈ rows ∧ r.node = node := by
  rw [versionsOf, mem_orderBy, List.mem_filter, beq_iff_eq]

theorem select_congr {rows rows' : List SummaryVersion}
    (h : rows'.filter (·.node == node) = rows.filter (·.node == node)) :
    selectCurrentSummary rows' node = selectCurrentSummary rows node := by
  rw [selectCurrentSummary, versionsOf, h, selectCurrentSummary, versionsOf]

theorem expected_of_select (hindex : s'.index = s.index)
    (h : s'.summaries.rows.filter (·.node == node) = s.summaries.rows.filter (·.node == node)) :
    s'.expected g node = s.expected g node := by
  unfold Store.expected
  rw [hindex, select_congr h]

theorem insertSummary_confined (version : Nat) (summary : Option String) (status : Status)
    (s : Store) : Confined g (· = node) s (s.insertSummary node version summary status) := by
  refine fun other hother => ⟨rfl, expected_of_select rfl ?_⟩
  rw [Store.insertSummary, Numbered.insert_rows, List.filter_append,
    List.filter_cons_of_neg (by simpa using Ne.symm hother), List.filter_nil, List.append_nil]

theorem addInitial_confined (version : Nat) (short : Option String) (s : Store) :
    Confined g (· = node) s (s.addInitial node version short) := by
  cases short with
  | none => exact .refl _ s
  | some short => exact insertSummary_confined version _ .ok s

theorem setStale_confined {summaryId : Nat}
    (h : (selectCurrentSummary s.summaries.rows node).id = some summaryId) :
    Confined g (· = node) s (s.setStale summaryId) := by
  obtain ⟨r, hr, hid, -⟩ := selectFrom_id h
  obtain ⟨hr, hnode⟩ := mem_versionsOf.mp hr
  refine fun other hother => ⟨rfl, expected_of_select rfl ?_⟩
  rw [Store.setStale, Numbered.update_rows, List.filter_map]
  have hpred : ((fun r : SummaryVersion => r.node == other) ∘
      fun r => if r.id = summaryId then { r with status := .stale } else r) =
      fun r => r.node == other := by
    funext r
    rw [Function.comp_apply]
    split <;> rfl
  rw [hpred]
  refine (List.map_congr_left fun r' hr' => ?_).trans (List.map_id _)
  obtain ⟨hmem, hother'⟩ := List.mem_filter.mp hr'
  refine if_neg fun hsame => hother ?_
  rw [← beq_iff_eq.mp hother', s.summaries.eq_of_number hmem hr (hsame.trans hid.symm), hnode]

theorem markCurrentSummaryStale_refreshed (g : Digests) (s : Store) (node : Node) :
    Refreshed g node s (s.markCurrentSummaryStale g node) := by
  unfold Store.markCurrentSummaryStale
  split
  · exact refreshNode_refreshed g s node
  · next summaryId hid => exact (setStale_confined hid).refreshed

theorem staleIf_confined (changed : Bool) (s : Store) :
    Confined g (· = node) s (s.staleIf g changed node) := by
  cases changed
  · exact .refl _ s
  · exact (markCurrentSummaryStale_refreshed g s node).others

theorem foldl_deleteNode_document? {α : Type} (nodes : α → Node) (list : List α) (s : Store)
    (other : Node) :
    (list.foldl (fun s a => s.deleteNode (nodes a)) s).document? other =
      if other ∈ list.map nodes then none else s.document? other := by
  induction list generalizing s with
  | nil => rfl
  | cons a list ih =>
    rw [List.foldl_cons, ih, document?_deleteNode, List.map_cons]
    by_cases hrest : other ∈ list.map nodes
    · rw [if_pos hrest, if_pos (List.mem_cons_of_mem _ hrest)]
    · rw [if_neg hrest]
      by_cases ha : other = nodes a
      · rw [if_pos ha, if_pos (List.mem_cons.mpr (.inl ha))]
      · rw [if_neg ha, if_neg fun h => (List.mem_cons.mp h).elim ha hrest]

theorem foldl_deleteNode_expected {α : Type} (nodes : α → Node) (list : List α) (s : Store)
    (other : Node) :
    (list.foldl (fun s a => s.deleteNode (nodes a)) s).expected g other = s.expected g other :=
  expected_of_same (Store.foldl_deleteNode nodes list s).1 (Store.foldl_deleteNode nodes list s).2.1
    other

end Steps

section Files

variable {d d' : Database} {path : String} {filterSmall : Bool} {f : FileFacts}

/-- The nodes of a file and of what it may define. -/
def ofFile (path : String) (node : Node) : Prop :=
  node = fileNode path ∨ ∃ name, node = symbolNode path name

/-- The facts of a file are gone and nothing else is. -/
structure Dropped (path : String) (d d' : Database) : Prop where
  files : ∀ q, q ≠ path → d'.file? q = d.file? q
  symbols : d'.symbols.rows = d.symbols.rows.filter fun r => !(r.filePath == path)
  clusters : d'.clusters = d.clusters

theorem Dropped.plain (h : Dropped path d d') (hd : PlainSymbols d) : PlainSymbols d' := by
  intro r hr
  rw [h.symbols] at hr
  exact hd r (List.mem_filter.mp hr).1

/-- Facts are lost by the nodes of the file only, and of those only by what was stored. -/
theorem Dropped.loadFactDocument_eq (h : Dropped path d d') (hd : PlainSymbols d)
    (hfile : node ≠ fileNode path)
    (hsymbol : ∀ r ∈ d.symbols.rows, r.filePath = path → node ≠ symbolNode path r.name) :
    loadFactDocument d' node = loadFactDocument d node := by
  obtain ⟨kind, ref⟩ := node
  cases kind with
  | symbol =>
    have hne (r : SymbolRow) (hr : r ∈ d.symbols.rows) (href : rowRef r = ref) :
        r.filePath ≠ path := fun hpath => hsymbol r hr hpath (by
      rw [symbolNode, ← hpath, ← href, rowRef])
    have hfind : d'.symbols.rows.find? (rowRef · == ref) = d.symbols.rows.find? (rowRef · == ref) := by
      rw [h.symbols, List.find?_filter]
      refine List.find?_congr fun r hr => ?_
      by_cases href : rowRef r = ref
      · simp [href, hne r hr href]
      · simp [href]
    rw [loadFactDocument, loadFactDocument, loadSymbol_eq (h.plain hd), loadSymbol_eq hd, hfind]
    cases hr : d.symbols.rows.find? (rowRef · == ref) with
    | none => rfl
    | some r =>
      have hfound := List.find?_some hr
      rw [Option.bind_some, Option.bind_some, symbolFacts, symbolFacts,
        h.files _ (hne r (List.mem_of_find?_eq_some hr) (beq_iff_eq.mp hfound))]
  | file =>
    have hne : ref ≠ path := by
      rintro rfl
      exact hfile rfl
    rw [loadFactDocument, loadFactDocument, h.files ref hne]
  | cluster => rw [loadFactDocument, loadFactDocument, h.clusters]

theorem Dropped.load_symbol (h : Dropped path d d') (hd : PlainSymbols d) (hpath : Plain path)
    (name : String) : loadFactDocument d' (symbolNode path name) = none := by
  rw [symbolNode, loadFactDocument, loadSymbol_eq (h.plain hd), List.find?_eq_none.mpr]
  · rfl
  · intro r hr heq
    rw [h.symbols] at hr
    obtain ⟨hr, hkept⟩ := List.mem_filter.mp hr
    obtain ⟨hsame, -⟩ := symbolRef_inj (hd r hr) hpath (beq_iff_eq.mp heq)
    rw [hsame] at hkept
    simp at hkept

theorem Dropped.load_stored (h : Dropped path d d') (hd : PlainSymbols d) {r : SymbolRow}
    (hr : r ∈ d.symbols.rows) (hpath : r.filePath = path) :
    loadFactDocument d' (symbolNode path r.name) = none :=
  h.load_symbol hd (hpath ▸ hd r hr) r.name

theorem Dropped.confined (h : Dropped path s.index d') (hs : PlainSymbols s.index) :
    Confined g (ofFile path) s { s with index := d' } := fun node hnode =>
  ⟨rfl, by
    rw [Store.expected, h.loadFactDocument_eq hs (fun hfile => hnode (.inl hfile))
      fun r _ _ hsymbol => hnode (.inr ⟨r.name, hsymbol⟩), Store.expected]⟩

theorem startWrite_dropped (f : FileFacts) (d : Database) : Dropped f.relPath d (startWrite f d) where
  files _ hq := file?_upsert_ne hq
  symbols := rfl
  clusters := rfl

theorem deleteFile_dropped (path : String) (d : Database) :
    Dropped path d (deleteFile path d).1 where
  files := (deleteFile_replaces path d).files
  symbols := by rw [(deleteFile_replaces path d).symbols, List.append_nil]
  clusters := (deleteFile_replaces path d).clusters

theorem load_unstored (hd : PlainSymbols d) (hpath : Plain path) {name : String}
    (h : name ∉ (d.symbols.rows.filter fun r => r.filePath == path).map SymbolRow.name) :
    loadFactDocument d (symbolNode path name) = none := by
  rw [symbolNode, loadFactDocument, loadSymbol_eq hd, List.find?_eq_none.mpr]
  · rfl
  · intro r hr heq
    obtain ⟨hsame, hname⟩ := symbolRef_inj (hd r hr) hpath (beq_iff_eq.mp heq)
    refine h (List.mem_map.mpr ⟨r, List.mem_filter.mpr ⟨hr, ?_⟩, hname⟩)
    rw [hsame]
    exact beq_self_eq_true path

theorem insertSymbol_rows (d : Database) (row : SymbolRow) :
    (insertSymbol d row).symbols.rows = d.symbols.rows ∨
      (insertSymbol d row).symbols.rows = d.symbols.rows ++ [row] := by
  unfold insertSymbol Keyed.insertOrIgnore
  dsimp only
  split
  · exact .inl rfl
  · exact .inr rfl

theorem insertSymbol_plain {row : SymbolRow} (hd : PlainSymbols d) (hrow : Plain row.filePath) :
    PlainSymbols (insertSymbol d row) := by
  intro r hr
  rcases insertSymbol_rows d row with h | h
  · exact hd r (h ▸ hr)
  · rw [h] at hr
    rcases List.mem_append.mp hr with hr | hr
    · exact hd r hr
    · rw [List.mem_singleton.mp hr]
      exact hrow

theorem insertSymbol_confined (row : SymbolRow) (hs : PlainSymbols s.index)
    (hrow : Plain row.filePath) :
    Confined g (· = symbolNode row.filePath row.name) s
      { s with index := insertSymbol s.index row } := by
  refine fun node hnode => ⟨rfl, ?_⟩
  have hload : loadFactDocument (insertSymbol s.index row) node = loadFactDocument s.index node := by
    obtain ⟨kind, ref⟩ := node
    cases kind with
    | symbol =>
      have hne : ¬(rowRef row == ref) = true := by
        rw [beq_iff_eq]
        rintro rfl
        exact hnode rfl
      have hmiss : [row].find? (rowRef · == ref) = none := by
        rw [List.find?_singleton, if_neg hne]
      rw [loadFactDocument, loadFactDocument, loadSymbol_eq (insertSymbol_plain hs hrow),
        loadSymbol_eq hs]
      rcases insertSymbol_rows s.index row with h | h
      · rw [h]
        rfl
      · rw [h, List.find?_append, hmiss, Option.or_none]
        rfl
    | file => rfl
    | cluster => rfl
  rw [Store.expected, hload, Store.expected]

theorem writeSymbol_refreshed (filterSmall : Bool) (hs : PlainSymbols s.index)
    (hpath : Plain f.relPath) (old : List SymbolRow) (versions : List SummaryVersion)
    (symbol : SymbolInfo) :
    Refreshed g (symbolNode f.relPath symbol.name) s
      (writeSymbol g filterSmall f old versions s symbol) := by
  have hinsert : Confined g (· = symbolNode f.relPath symbol.name) s
      { s with index := insertSymbol s.index (f.symbolRow g.toHashes symbol) } :=
    insertSymbol_confined (f.symbolRow g.toHashes symbol) hs hpath
  simp only [writeSymbol]
  split
  · exact hinsert.refreshed
  · exact ((hinsert.trans (staleIf_confined _ _)).trans (addInitial_confined _ _ _)).refreshed

/-- The store in the middle of a write, with the symbols written so far. -/
structure Writing (g : Digests) (path : String) (s₀ s : Store) (written : List String) : Prop where
  confined : Confined g (ofFile path) s₀ s
  plain : PlainSymbols s.index
  done : ∀ name ∈ written,
    s.document? (symbolNode path name) = s.expected g (symbolNode path name)
  pending : ∀ name ∉ written,
    s.document? (symbolNode path name) = s₀.document? (symbolNode path name) ∧
      s.expected g (symbolNode path name) = none

variable {s₀ : Store} {written : List String}

theorem symbolNode_inj {name name' : String} (hpath : Plain path)
    (h : symbolNode path name = symbolNode path name') : name = name' :=
  (symbolRef_inj hpath hpath (Node.mk.inj h).2).2

theorem Writing.symbol (filterSmall : Bool) (h : Writing g f.relPath s₀ s written)
    (hpath : Plain f.relPath) (old : List SymbolRow) (versions : List SummaryVersion)
    (symbol : SymbolInfo) :
    Writing g f.relPath s₀ (writeSymbol g filterSmall f old versions s symbol)
      (written ++ [symbol.name]) := by
  have hr := writeSymbol_refreshed (g := g) filterSmall h.plain hpath old versions symbol
  refine ⟨h.confined.trans (hr.others.mono fun node hnode => .inr ⟨_, hnode⟩), ?_, ?_, ?_⟩
  · rw [writeSymbol_index]
    exact insertSymbol_plain h.plain hpath
  · intro name hname
    by_cases hsame : name = symbol.name
    · rw [hsame]
      exact hr.self
    · obtain ⟨hdoc, hexp⟩ := hr.others _ fun heq => hsame (symbolNode_inj hpath heq)
      rw [hdoc, hexp]
      refine h.done name ?_
      simpa [hsame] using hname
  · intro name hname
    rw [List.mem_append, List.mem_singleton, not_or] at hname
    obtain ⟨hdoc, hexp⟩ := hr.others _ fun heq => hname.2 (symbolNode_inj hpath heq)
    rw [hdoc, hexp]
    exact h.pending name hname.1

theorem Writing.symbols (filterSmall : Bool) (h : Writing g f.relPath s₀ s written)
    (hpath : Plain f.relPath) (old : List SymbolRow) (versions : List SummaryVersion)
    (symbols : List SymbolInfo) :
    Writing g f.relPath s₀ (symbols.foldl (writeSymbol g filterSmall f old versions) s)
      (written ++ symbols.map SymbolInfo.name) := by
  induction symbols generalizing s written with
  | nil => rwa [List.map_nil, List.append_nil]
  | cons symbol symbols ih =>
    have hstep := ih (h.symbol filterSmall hpath old versions symbol)
    rwa [List.append_assoc] at hstep

theorem finishWrite_expected (hs : PlainSymbols s.index) (f : FileFacts) (node : Node) :
    Store.expected g { s with index := finishWrite f s.index } node = s.expected g node := by
  have hsame : SameLookups s.index (finishWrite f s.index) := .of_eq rfl rfl
  rw [Store.expected, hsame.loadFactDocument_eq hs rfl, Store.expected]

theorem mem_removedNames {old : List SymbolRow} {name : String} :
    name ∈ removedNames f old ↔
      name ∈ old.map SymbolRow.name ∧ name ∉ f.canonicalSymbols.map SymbolInfo.name := by
  rw [removedNames, List.mem_filter, List.contains_eq_mem, Bool.not_eq_true', decide_eq_false_iff_not]

/-- The names that a write leaves without a symbol are the ones whose documents it deletes. -/
theorem Writing.dropped {old : List SymbolRow} {t : Store}
    (h : Writing g f.relPath s t (f.canonicalSymbols.map SymbolInfo.name)) (hproj : Projected g s)
    (hs : PlainSymbols s.index) (hpath : Plain f.relPath)
    (hold : (s.index.symbols.rows.filter fun r => r.filePath == f.relPath) = old) {node : Node}
    (hnode : node ≠ fileNode f.relPath) :
    ((removedNames f old).foldl (fun s name => s.deleteNode (symbolNode f.relPath name)) t).document?
      node = t.expected g node := by
  have hremoved (name : String) : symbolNode f.relPath name ∈
      (removedNames f old).map (symbolNode f.relPath) ↔ name ∈ removedNames f old := by
    refine ⟨fun hmem => ?_, List.mem_map_of_mem⟩
    obtain ⟨name', hname', heq⟩ := List.mem_map.mp hmem
    rwa [symbolNode_inj hpath heq] at hname'
  rw [foldl_deleteNode_document? (symbolNode f.relPath)]
  by_cases hsymbol : ∃ name, node = symbolNode f.relPath name
  · obtain ⟨name, rfl⟩ := hsymbol
    rw [if_congr ((hremoved name).trans mem_removedNames) rfl rfl]
    by_cases hdone : name ∈ f.canonicalSymbols.map SymbolInfo.name
    · rw [if_neg fun hmem => hmem.2 hdone, h.done name hdone]
    · obtain ⟨hdoc, hexp⟩ := h.pending name hdone
      rw [hexp, hdoc, hproj, Store.expected]
      by_cases hstored : name ∈ old.map SymbolRow.name
      · rw [if_pos ⟨hstored, hdone⟩]
      · rw [if_neg fun hmem => hstored hmem.1, load_unstored hs hpath (hold ▸ hstored)]
        rfl
  · have hother : ¬ofFile f.relPath node := fun hof => hof.elim hnode hsymbol
    have hkept : node ∉ (removedNames f old).map (symbolNode f.relPath) := fun hmem => by
      obtain ⟨name, -, heq⟩ := List.mem_map.mp hmem
      exact hsymbol ⟨name, heq.symm⟩
    obtain ⟨hdoc, hexp⟩ := h.confined node hother
    rw [if_neg hkept, hdoc, hexp, hproj]

theorem Projected.write (h : Projected g s) (hs : PlainSymbols s.index) (hpath : Plain f.relPath)
    (filterSmall : Bool) : Projected g (s.write g filterSmall f) := by
  unfold Store.write
  split
  · exact h
  · have hdrop := startWrite_dropped f s.index
    have hstart : Writing g f.relPath s { s with index := startWrite f s.index } [] :=
      ⟨hdrop.confined hs, hdrop.plain hs, fun _ hname => absurd hname List.not_mem_nil, fun name _ =>
        ⟨rfl, by rw [Store.expected, hdrop.load_symbol hs hpath]; rfl⟩⟩
    have hsymbols := hstart.symbols filterSmall hpath
      (s.index.symbols.rows.filter fun r => r.filePath == f.relPath) s.summaries.rows
      f.canonicalSymbols
    rw [List.nil_append] at hsymbols
    dsimp only
    generalize hold : (s.index.symbols.rows.filter fun r => r.filePath == f.relPath) = old at *
    generalize f.canonicalSymbols.foldl (writeSymbol g filterSmall f old s.summaries.rows)
      { s with index := startWrite f s.index } = t at *
    have hdropped (node : Node) (hnode : node ≠ fileNode f.relPath) :=
      hsymbols.dropped h hs hpath hold hnode
    have hplain : PlainSymbols ((removedNames f old).foldl
        (fun s name => s.deleteNode (symbolNode f.relPath name)) t).index := by
      rw [(Store.foldl_deleteNode (symbolNode f.relPath) _ t).1]
      exact hsymbols.plain
    have hsame := foldl_deleteNode_expected (g := g) (symbolNode f.relPath) (removedNames f old) t
    generalize (removedNames f old).foldl
      (fun s name => s.deleteNode (symbolNode f.relPath name)) t = u at *
    have hconfined : Confined g (· = fileNode f.relPath) u _ :=
      staleIf_confined (s.index.hasFile f.relPath && !sameNames f old) u
    have hlast := hconfined.refreshed
    intro node
    refine Eq.trans ?_ (finishWrite_expected ?_ f node).symm
    · by_cases hnode : node = fileNode f.relPath
      · rw [hnode]
        exact hlast.self
      · obtain ⟨hdoc, hexp⟩ := hlast.others node hnode
        exact hdoc.trans ((hdropped node hnode).trans ((hsame node).symm.trans hexp.symm))
    · rw [Store.refreshNode_index, Store.staleIf_index]
      exact hplain

theorem Projected.delete (h : Projected g s) (hs : PlainSymbols s.index) (path : String) :
    Projected g (s.delete path) := by
  have hdrop := deleteFile_dropped path s.index
  have hnames {name : String} : name ∈ (orderBy (compareOn SymbolRow.name)
      (s.index.symbols.rows.filter fun r => r.filePath == path)).map SymbolRow.name ↔
      ∃ r ∈ s.index.symbols.rows, r.filePath = path ∧ r.name = name := by
    simp only [List.mem_map, mem_orderBy, List.mem_filter, beq_iff_eq, and_assoc]
  unfold Store.delete
  dsimp only
  generalize (orderBy (compareOn SymbolRow.name)
    (s.index.symbols.rows.filter fun r => r.filePath == path)).map SymbolRow.name = refs at *
  obtain ⟨hindex, hsummaries, -⟩ := Store.foldl_deleteNode (symbolNode path) refs s
  have hdocument := foldl_deleteNode_document? (symbolNode path) refs s
  generalize refs.foldl (fun s name => s.deleteNode (symbolNode path name)) s = t at *
  intro node
  have hexpected : Store.expected g { t.deleteNode (fileNode path) with index := (deleteFile path t.index).1 }
      node = (loadFactDocument (deleteFile path s.index).1 node).map fun facts =>
        documentOf g node facts (selectCurrentSummary s.summaries.rows node) := by
    rw [Store.expected, Store.deleteNode_summaries, hindex, hsummaries]
  refine Eq.trans ?_ hexpected.symm
  change (t.deleteNode (fileNode path)).document? node = _
  rw [document?_deleteNode, hdocument]
  by_cases hfile : node = fileNode path
  · rw [if_pos hfile, hfile]
    have hgone := deleteFile_hasFile path s.index
    rw [Database.hasFile, Option.isSome_eq_false_iff, Option.isNone_iff_eq_none] at hgone
    rw [fileNode, loadFactDocument, hgone]
    rfl
  · rw [if_neg hfile]
    by_cases hstored : ∃ r ∈ s.index.symbols.rows, r.filePath = path ∧ node = symbolNode path r.name
    · obtain ⟨r, hr, hpath, rfl⟩ := hstored
      rw [if_pos (List.mem_map_of_mem (hnames.mpr ⟨r, hr, hpath, rfl⟩)),
        hdrop.load_stored hs hr hpath]
      rfl
    · have hkept : node ∉ refs.map (symbolNode path) := fun hmem => by
        obtain ⟨name, hname, heq⟩ := List.mem_map.mp hmem
        obtain ⟨r, hr, hpath, rfl⟩ := hnames.mp hname
        exact hstored ⟨r, hr, hpath, heq.symm⟩
      rw [if_neg hkept, hdrop.loadFactDocument_eq hs hfile
        fun r hr hpath heq => hstored ⟨r, hr, hpath, heq⟩]
      exact h node

end Files

end RemyCC.Retrieval
