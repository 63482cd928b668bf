import RemyCC.Json.RoundTrip
import RemyCC.Relational.Run
import RemyCC.Retrieval.Consistent

/-!
# Summaries taken from docstrings

Beside the store runs what it does not keep: which versions a write put in itself,
and what it would take from the docstring of a symbol as that was last parsed. As
long as a docstring changes with the hash of its symbol or not at all, no version
put in outlives the docstring that it was taken from.
-/

namespace RemyCC.Retrieval

open Relational Text Index

section Payload

theorem readable_summaryStyle : Json.Readable summaryStyle where
  escape := Json.readString_escapeChar
  itemSep := ⟨[' '], rfl, by simp [Json.isBlank]⟩
  keySep := ⟨[' '], rfl, by simp [Json.isBlank]⟩

theorem parse_initialPayload (short : String) : Json.parse (initialPayload short) =
    some (.obj [("short", .str short), ("full", .null)]) := by
  refine Json.readText_printChars readable_summaryStyle (.obj (by simp) fun f hf => ?_)
  rcases List.mem_cons.mp hf with rfl | hf
  · exact .str short
  · rw [List.mem_singleton.mp hf]
    exact .null

theorem trim_ne {s : String} {c : Char} (hc : c ∈ s.toList) (hblank : isWhitespace c = false) :
    trim s ≠ "" := by
  intro h
  have hchars : ((s.toList.dropWhile isWhitespace).reverse.dropWhile isWhitespace).reverse = [] :=
    String.ofList_injective h
  rw [List.reverse_eq_nil_iff, List.dropWhile_eq_nil_iff] at hchars
  have hrest : s.toList.dropWhile isWhitespace = [] := by
    cases hdrop : s.toList.dropWhile isWhitespace with
    | nil => rfl
    | cons d rest =>
      have hd := hchars d (by rw [hdrop]; simp)
      have hhead := List.head_dropWhile_not isWhitespace (l := s.toList) (by rw [hdrop]; simp)
      simp only [hdrop, List.head_cons] at hhead
      rw [hd] at hhead
      cases hhead
  rw [List.dropWhile_eq_nil_iff.mp hrest c hc] at hblank
  cases hblank

theorem initialSummary_not_blank {filterSmall : Bool} {symbol : SymbolInfo} {short : String}
    (h : initialSummary filterSmall symbol = some short) : trim short ≠ "" := by
  unfold initialSummary at h
  split at h
  · dsimp only at h
    split at h
    · cases h
    · cases h
      exact trim_ne (c := 'D') (by simp) (by decide)
  · split at h
    · cases h
      exact trim_ne (c := 'S') (by simp) (by decide)
    · cases h

theorem readPayload_initial {filterSmall : Bool} {symbol : SymbolInfo} {short : String}
    (h : initialSummary filterSmall symbol = some short) :
    readPayload (initialPayload short) = some (short, none) := by
  have hshort : (Json.Value.field [("short", .str short), ("full", .null)] "short").bind
      Json.Value.asStr = some short := rfl
  rw [readPayload, parse_initialPayload]
  dsimp only
  rw [hshort]
  exact if_neg (initialSummary_not_blank h)

end Payload

section Selection

/-- A version above all others comes first. -/
theorem orderBy_concat {rows : List SummaryVersion} {r : SummaryVersion}
    (hbelow : ∀ s ∈ rows, s.version < r.version) :
    orderBy (fun a b => compare b.version a.version) (rows ++ [r]) =
      r :: orderBy (fun a b => compare b.version a.version) rows := by
  unfold orderBy
  induction rows with
  | nil => rfl
  | cons s rows ih =>
    have hs : ¬ (compare r.version s.version).isLE = true := by
      rw [Nat.isLE_compare]
      exact Nat.not_le.mpr (hbelow s List.mem_cons_self)
    rw [List.cons_append, List.insertionSort_cons, List.insertionSort_cons,
      ih fun t ht => hbelow t (List.mem_cons_of_mem s ht), List.orderedInsert, if_neg hs]

theorem versionsOf_concat {node : Node} {rows : List SummaryVersion} {r : SummaryVersion}
    (hnode : r.node = node) (hbelow : ∀ s ∈ rows, s.node = node → s.version < r.version) :
    versionsOf node (rows ++ [r]) = r :: versionsOf node rows := by
  have hlast : [r].filter (·.node == node) = [r] := by simp [hnode]
  rw [versionsOf, List.filter_append, hlast]
  refine orderBy_concat fun s hs => ?_
  obtain ⟨hmem, hsame⟩ := List.mem_filter.mp hs
  exact hbelow s hmem (beq_iff_eq.mp hsame)

theorem selectFrom_ok {id version : Nat} {node : Node} {text short : String}
    {full : Option String} (rows : List SummaryVersion)
    (hread : readPayload text = some (short, full)) :
    selectFrom (⟨id, node, version, some text, .ok⟩ :: rows) =
      ⟨some id, some version, some short, full⟩ := by
  rw [selectFrom, if_neg (fun h : Status.ok = .stale => Status.noConfusion h)]
  simp only [Status.available, if_true, Option.bind_some, hread]

/-- The row with a number, marked stale. -/
def staled (summaryId : Nat) (r : SummaryVersion) : SummaryVersion :=
  if r.id = summaryId then { r with status := .stale } else r

@[simp]
theorem staled_node (summaryId : Nat) (r : SummaryVersion) :
    (staled summaryId r).node = r.node := by
  unfold staled
  split <;> rfl

@[simp]
theorem staled_version (summaryId : Nat) (r : SummaryVersion) :
    (staled summaryId r).version = r.version := by
  unfold staled
  split <;> rfl

theorem filter_staled (node : Node) (summaryId : Nat) (rows : List SummaryVersion) :
    (rows.map (staled summaryId)).filter (·.node == node) =
      (rows.filter (·.node == node)).map (staled summaryId) := by
  rw [List.filter_map]
  simp only [Function.comp_def, staled_node]

theorem versionsOf_staled (node : Node) (summaryId : Nat) (rows : List SummaryVersion) :
    versionsOf node (rows.map (staled summaryId)) =
      (versionsOf node rows).map (staled summaryId) := by
  have hsort := map_orderBy_comp (staled summaryId) (fun a b => compare b.version a.version)
    (rows.filter (·.node == node))
  simp only [staled_version] at hsort
  rw [versionsOf, filter_staled, ← hsort, versionsOf]

theorem selectFrom_staled {rows : List SummaryVersion} {summaryId : Nat}
    (hids : (rows.map SummaryVersion.id).Nodup) (h : (selectFrom rows).id = some summaryId) :
    selectFrom (rows.map (staled summaryId)) = .default := by
  induction rows with
  | nil => cases h
  | cons r rows ih =>
    obtain ⟨hr, hids⟩ := List.nodup_cons.mp hids
    have hskip (hrest : (selectFrom rows).id = some summaryId) : r.id ≠ summaryId := by
      obtain ⟨t, ht, hid, -⟩ := selectFrom_id hrest
      exact fun heq => hr (List.mem_map.mpr ⟨t, ht, hid.trans heq.symm⟩)
    rw [selectFrom] at h
    rw [List.map_cons, selectFrom, staled]
    split at h
    · cases h
    · next hstale =>
      split at h
      · next havailable =>
        cases hread : r.summary.bind readPayload with
        | some texts =>
          rw [hread] at h
          cases h
          rw [if_pos rfl, if_pos rfl]
        | none =>
          rw [hread] at h
          rw [if_neg (hskip h), if_neg hstale, if_pos havailable, hread]
          exact ih hids h
      · next havailable =>
        rw [if_neg (hskip h), if_neg hstale, if_neg havailable]
        exact ih hids h

end Selection

section Versions

variable {g : Digests} {s s' s'' : Store} {node : Node}

/-- The versions of a node are the same. -/
def SameVersions (node : Node) (s s' : Store) : Prop :=
  s'.summaries.rows.filter (·.node == node) = s.summaries.rows.filter (·.node == node)

theorem SameVersions.of_eq (h : s'.summaries = s.summaries) : SameVersions node s s' := by
  rw [SameVersions, h]

theorem SameVersions.trans (h : SameVersions node s s') (h' : SameVersions node s' s'') :
    SameVersions node s s'' := Eq.trans h' h

theorem SameVersions.refreshed (h : SameVersions node s s') (g : Digests) (other : Node) :
    SameVersions node s (s'.refreshNode g other) :=
  h.trans (.of_eq (Store.refreshNode_summaries g s' other))

theorem sameVersions_insert {other : Node} (h : node ≠ other) (version : Nat)
    (summary : Option String) (status : Status) (s : Store) :
    SameVersions node s (s.insertSummary other version summary status) := by
  rw [SameVersions, Store.insertSummary, Numbered.insert_rows, List.filter_append,
    List.filter_cons_of_neg (by simpa using Ne.symm h), List.filter_nil, List.append_nil]

theorem sameVersions_stale {other : Node} (h : node ≠ other) {summaryId : Nat}
    (hid : (selectCurrentSummary s.summaries.rows other).id = some summaryId) :
    SameVersions node s (s.setStale summaryId) := by
  obtain ⟨r, hr, hrid, -⟩ := selectFrom_id hid
  obtain ⟨hr, hnode⟩ := mem_versionsOf.mp hr
  have hrows : (s.setStale summaryId).summaries.rows = s.summaries.rows.map (staled summaryId) :=
    rfl
  rw [SameVersions, hrows, filter_staled]
  refine (List.map_congr_left fun r' hr' => ?_).trans (List.map_id _)
  obtain ⟨hmem, hsame⟩ := List.mem_filter.mp hr'
  refine if_neg fun heq => h ?_
  rw [← beq_iff_eq.mp hsame, s.summaries.eq_of_number hmem hr (heq.trans hrid.symm), hnode]

theorem sameVersions_staleIf {other : Node} (h : node ≠ other) (changed : Bool) (s : Store) :
    SameVersions node s (s.staleIf g changed other) := by
  cases changed with
  | false => exact .of_eq rfl
  | true =>
    change SameVersions node s (s.markCurrentSummaryStale g other)
    unfold Store.markCurrentSummaryStale
    split
    · exact .of_eq (Store.refreshNode_summaries g s other)
    · next summaryId hid => exact (sameVersions_stale h hid).refreshed g other

theorem sameVersions_addInitial {other : Node} (h : node ≠ other) (version : Nat)
    (short : Option String) (s : Store) :
    SameVersions node s (s.addInitial other version short) := by
  cases short with
  | none => exact .of_eq rfl
  | some short => exact sameVersions_insert h version _ .ok s

/-- After its current summary has been marked a node has none, and its numbers are the same. -/
theorem marked_select (s : Store) (node : Node) :
    (selectCurrentSummary (s.markCurrentSummaryStale g node).summaries.rows node).id = none ∧
      ∀ r ∈ (s.markCurrentSummaryStale g node).summaries.rows, ∃ r' ∈ s.summaries.rows,
        r'.node = r.node ∧ r'.version = r.version := by
  unfold Store.markCurrentSummaryStale
  split
  · next hid =>
    rw [Store.refreshNode_summaries]
    exact ⟨hid, fun r hr => ⟨r, hr, rfl, rfl⟩⟩
  · next summaryId hid =>
    have hrows : (s.setStale summaryId).summaries.rows = s.summaries.rows.map (staled summaryId) :=
      rfl
    have hids : ((versionsOf node s.summaries.rows).map SummaryVersion.id).Nodup :=
      ((orderBy_perm _ _).map SummaryVersion.id).nodup_iff.mpr
        (s.summaries.nodup.sublist (List.filter_sublist.map SummaryVersion.id))
    rw [Store.refreshNode_summaries, hrows]
    constructor
    · rw [selectCurrentSummary, versionsOf_staled, selectFrom_staled hids hid]
      rfl
    · intro r hr
      obtain ⟨r', hr', rfl⟩ := List.mem_map.mp hr
      exact ⟨r', hr', (staled_node summaryId r').symm, (staled_version summaryId r').symm⟩

end Versions

section Symbols

variable {g : Digests} {s s' : Store} {f : FileFacts} {filterSmall : Bool}
  {old : List SymbolRow} {versions : List SummaryVersion}

theorem existingVersion_spec (path name : String) (rows : List SummaryVersion) :
    (existingVersion path (symbolRef path name) rows = none →
        ∀ r ∈ rows, r.node ≠ symbolNode path name) ∧
      ∀ r ∈ rows, r.node = symbolNode path name →
        r.version < (existingVersion path (symbolRef path name) rows).getD 0 + 1 := by
  have hlike : like (path ++ "::%") (symbolRef path name) = true := by
    have hpattern : path ++ "::%" = (path ++ "::") ++ "%" := by simp [String.append_assoc]
    rw [hpattern, symbolRef, like_lead]
  have hmem (r : SummaryVersion) (hr : r ∈ rows) (hnode : r.node = symbolNode path name) :
      r.version ∈ (rows.filter fun r => r.node.kind == .symbol &&
        like (path ++ "::%") r.node.ref && r.node.ref == symbolRef path name).map
          SummaryVersion.version := by
    refine List.mem_map_of_mem (List.mem_filter.mpr ⟨hr, ?_⟩)
    rw [hnode]
    simp [symbolNode, hlike]
  unfold existingVersion
  constructor
  · intro hnone r hr hnode
    have hin := hmem r hr hnode
    rw [List.max?_eq_none_iff.mp hnone] at hin
    cases hin
  · intro r hr hnode
    have hin := hmem r hr hnode
    generalize (rows.filter fun r => r.node.kind == .symbol &&
      like (path ++ "::%") r.node.ref && r.node.ref == symbolRef path name).map
        SummaryVersion.version = numbers at hin
    cases hmax : numbers.max? with
    | none =>
      rw [List.max?_eq_none_iff.mp hmax] at hin
      cases hin
    | some top => exact Nat.lt_succ_of_le ((List.max?_eq_some_iff.mp hmax).2 _ hin)

/-- The old row of a symbol has the hash of the new one. -/
def hashUnchanged (g : Digests) (f : FileFacts) (old : List SymbolRow) (symbol : SymbolInfo) :
    Bool :=
  (old.find? (·.name == symbol.name)).any (·.hash == (f.symbolRow g.toHashes symbol).hash)

/-- The summary that a symbol may keep when its file is written. -/
def keepsSummary (g : Digests) (f : FileFacts) (old : List SymbolRow)
    (versions : List SummaryVersion) (symbol : SymbolInfo) : Bool :=
  hashUnchanged g f old symbol &&
    (existingVersion f.relPath (symbolRef f.relPath symbol.name) versions).isSome

def existingOf (f : FileFacts) (versions : List SummaryVersion) (symbol : SymbolInfo) :
    Option Nat :=
  existingVersion f.relPath (symbolRef f.relPath symbol.name) versions

def withSymbol (g : Digests) (f : FileFacts) (symbol : SymbolInfo) (s : Store) : Store :=
  { s with index := insertSymbol s.index (f.symbolRow g.toHashes symbol) }

theorem writeSymbol_eq (symbol : SymbolInfo) :
    writeSymbol g filterSmall f old versions s symbol =
      if keepsSummary g f old versions symbol then
        (withSymbol g f symbol s).refreshNode g (symbolNode f.relPath symbol.name)
      else
        ((((withSymbol g f symbol s).staleIf g (existingOf f versions symbol).isSome
          (symbolNode f.relPath symbol.name)).addInitial (symbolNode f.relPath symbol.name)
            ((existingOf f versions symbol).getD 0 + 1)
            (initialSummary filterSmall symbol)).refreshNode g
              (symbolNode f.relPath symbol.name)) := rfl

theorem writeSymbol_others (g : Digests) (filterSmall : Bool) (old : List SymbolRow)
    (versions : List SummaryVersion) (s : Store) {node : Node} {symbol : SymbolInfo}
    (h : node ≠ symbolNode f.relPath symbol.name) :
    SameVersions node s (writeSymbol g filterSmall f old versions s symbol) := by
  have hindexed : SameVersions node s (withSymbol g f symbol s) := .of_eq rfl
  rw [writeSymbol_eq]
  split
  · exact hindexed.refreshed g _
  · exact ((hindexed.trans (sameVersions_staleIf h _ _)).trans
      (sameVersions_addInitial h _ _ _)).refreshed g _

theorem writeSymbol_keeps {symbol : SymbolInfo} (h : keepsSummary g f old versions symbol = true) :
    (writeSymbol g filterSmall f old versions s symbol).summaries = s.summaries := by
  rw [writeSymbol_eq, if_pos h, Store.refreshNode_summaries]
  rfl

/-- The current summary of a node, if there is one, is a text taken at this write. -/
def Taken (node : Node) (text : Option String) (s : Store) : Prop :=
  (selectCurrentSummary s.summaries.rows node).id ≠ none →
    (selectCurrentSummary s.summaries.rows node).short = text

theorem Taken.congr {node : Node} {text : Option String} (h : Taken node text s)
    (hsame : SameVersions node s s') : Taken node text s' := by
  unfold Taken at h ⊢
  rwa [select_congr hsame]

theorem addInitial_taken {node : Node} {version : Nat} {symbol : SymbolInfo}
    (hbelow : ∀ r ∈ s.summaries.rows, r.node = node → r.version < version)
    (hnone : (selectCurrentSummary s.summaries.rows node).id = none) :
    Taken node (initialSummary filterSmall symbol)
      (s.addInitial node version (initialSummary filterSmall symbol)) := by
  cases hinitial : initialSummary filterSmall symbol with
  | none => exact fun hid => absurd hnone hid
  | some short =>
    intro _
    have hversions : versionsOf node (s.summaries.rows ++
        [⟨s.summaries.last + 1, node, version, some (initialPayload short), .ok⟩]) =
        ⟨s.summaries.last + 1, node, version, some (initialPayload short), .ok⟩ ::
          versionsOf node s.summaries.rows := versionsOf_concat rfl hbelow
    have hrows : (s.addInitial node version (some short)).summaries.rows = s.summaries.rows ++
        [⟨s.summaries.last + 1, node, version, some (initialPayload short), .ok⟩] := rfl
    rw [hrows, selectCurrentSummary, hversions, selectFrom_ok _ (readPayload_initial hinitial)]

theorem writeSymbol_taken (filterSmall : Bool) {symbol : SymbolInfo}
    (h : keepsSummary g f old versions symbol = false)
    (hsame : s.summaries.rows.filter (·.node == symbolNode f.relPath symbol.name) =
      versions.filter (·.node == symbolNode f.relPath symbol.name)) :
    Taken (symbolNode f.relPath symbol.name) (initialSummary filterSmall symbol)
      (writeSymbol g filterSmall f old versions s symbol) := by
  obtain ⟨hnone, hbelow⟩ := existingVersion_spec f.relPath symbol.name versions
  have hversions (r : SummaryVersion) (hr : r ∈ s.summaries.rows)
      (hnode : r.node = symbolNode f.relPath symbol.name) : r ∈ versions := by
    have hin : r ∈ s.summaries.rows.filter (·.node == symbolNode f.relPath symbol.name) :=
      List.mem_filter.mpr ⟨hr, beq_iff_eq.mpr hnode⟩
    rw [hsame] at hin
    exact (List.mem_filter.mp hin).1
  rw [writeSymbol_eq, if_neg (by rw [h]; decide)]
  refine Taken.congr (addInitial_taken ?_ ?_) (.of_eq (Store.refreshNode_summaries _ _ _))
  · intro r hr hnode
    cases hexisting : existingOf f versions symbol with
    | none =>
      rw [hexisting] at hr
      exact absurd hnode (hnone hexisting r (hversions r hr hnode))
    | some top =>
      rw [hexisting] at hr
      obtain ⟨r', hr', hsame', hversion⟩ := (marked_select (withSymbol g f symbol s) _).2 r hr
      have hin := hversions r' hr' (hsame'.trans hnode)
      have hlt := hbelow r' hin (hsame'.trans hnode)
      rw [hversion] at hlt
      exact hexisting ▸ hlt
  · cases hexisting : existingOf f versions symbol with
    | none =>
      have hempty : versionsOf (symbolNode f.relPath symbol.name) s.summaries.rows = [] := by
        refine List.eq_nil_iff_forall_not_mem.mpr fun r hr => ?_
        obtain ⟨hr, hnode⟩ := mem_versionsOf.mp hr
        exact hnone hexisting r (hversions r hr hnode) hnode
      change (selectFrom (versionsOf _ s.summaries.rows)).id = none
      rw [hempty]
      rfl
    | some top => exact (marked_select (withSymbol g f symbol s) _).1

theorem symbolNode_name {path name name' : String}
    (h : symbolNode path name = symbolNode path name') : name = name' :=
  (String.append_right_inj _).mp (congrArg Node.ref h)

theorem foldl_writeSymbol_others (g : Digests) (filterSmall : Bool) (old : List SymbolRow)
    (versions : List SummaryVersion) {node : Node} (symbols : List SymbolInfo)
    (h : ∀ x ∈ symbols, node ≠ symbolNode f.relPath x.name) (s : Store) :
    SameVersions node s (symbols.foldl (writeSymbol g filterSmall f old versions) s) := by
  induction symbols generalizing s with
  | nil => exact .of_eq rfl
  | cons x symbols ih =>
    have hstep := writeSymbol_others g filterSmall old versions s (h x List.mem_cons_self)
    exact hstep.trans (ih (fun y hy => h y (List.mem_cons_of_mem x hy)) _)

/-- Each symbol that is written either keeps the versions it had or has a text taken now. -/
theorem foldl_writeSymbol_taken (filterSmall : Bool) (old : List SymbolRow)
    (symbols : List SymbolInfo)
    (hnodup : (symbols.map SymbolInfo.name).Nodup)
    (hsame : ∀ x ∈ symbols, s.summaries.rows.filter (·.node == symbolNode f.relPath x.name) =
      versions.filter (·.node == symbolNode f.relPath x.name)) {x : SymbolInfo}
    (hx : x ∈ symbols) :
    if keepsSummary g f old versions x then
      SameVersions (symbolNode f.relPath x.name) s
        (symbols.foldl (writeSymbol g filterSmall f old versions) s)
    else
      Taken (symbolNode f.relPath x.name) (initialSummary filterSmall x)
        (symbols.foldl (writeSymbol g filterSmall f old versions) s) := by
  induction symbols generalizing s with
  | nil => cases hx
  | cons y symbols ih =>
    obtain ⟨hy, hnodup⟩ := List.nodup_cons.mp hnodup
    have hne (z : SymbolInfo) (hz : z ∈ symbols) :
        symbolNode f.relPath z.name ≠ symbolNode f.relPath y.name := fun heq =>
      hy (List.mem_map.mpr ⟨z, hz, symbolNode_name heq⟩)
    rcases List.mem_cons.mp hx with rfl | hx
    · have hrest := foldl_writeSymbol_others g filterSmall old versions symbols
        (fun z hz => Ne.symm (hne z hz)) (writeSymbol g filterSmall f old versions s x)
      split
      · next hkeeps => exact (SameVersions.of_eq (writeSymbol_keeps hkeeps)).trans hrest
      · next hkeeps =>
        have htaken := writeSymbol_taken filterSmall (Bool.eq_false_iff.mpr hkeeps)
          (hsame x List.mem_cons_self)
        exact htaken.congr hrest
    · have hstep (z : SymbolInfo) (hz : z ∈ symbols) :=
        writeSymbol_others g filterSmall old versions s (hne z hz)
      have hfold := ih hnodup (fun z hz =>
        Eq.trans (hstep z hz) (hsame z (List.mem_cons_of_mem y hz))) hx
      split
      · next hkeeps =>
        rw [if_pos hkeeps] at hfold
        exact (hstep x hx).trans hfold
      · next hkeeps =>
        rw [if_neg hkeeps] at hfold
        exact hfold

end Symbols

section Writes

variable {g : Digests} {s : Store} {f : FileFacts} {filterSmall : Bool}

/-- The rows of a file's symbols before its facts are replaced. -/
def oldSymbols (s : Store) (path : String) : List SymbolRow :=
  s.index.symbols.rows.filter fun r => r.filePath == path

/-- The part of a write that goes through the symbols. -/
def writeSymbols (g : Digests) (filterSmall : Bool) (f : FileFacts) (s : Store) : Store :=
  f.canonicalSymbols.foldl
    (writeSymbol g filterSmall f (oldSymbols s f.relPath) s.summaries.rows)
    { s with index := startWrite f s.index }

theorem write_rest (hchanged : fileUnchanged f s.index = false) {node : Node}
    (hfile : node ≠ fileNode f.relPath) :
    SameVersions node (writeSymbols g filterSmall f s) (s.write g filterSmall f) := by
  unfold Store.write
  rw [hchanged, if_neg Bool.false_ne_true]
  refine SameVersions.trans ?_ (.of_eq rfl)
  refine SameVersions.refreshed (SameVersions.trans ?_ (sameVersions_staleIf hfile _ _)) g _
  exact .of_eq (Store.foldl_deleteNode _ _ _).2.1

theorem write_others {node : Node} (hfile : node ≠ fileNode f.relPath)
    (hsymbols : ∀ x ∈ f.canonicalSymbols, node ≠ symbolNode f.relPath x.name) :
    SameVersions node s (s.write g filterSmall f) := by
  cases hchanged : fileUnchanged f s.index with
  | true =>
    rw [Store.write, if_pos hchanged]
    exact .of_eq rfl
  | false =>
    have hsymbols' := foldl_writeSymbol_others g filterSmall (oldSymbols s f.relPath)
      s.summaries.rows f.canonicalSymbols hsymbols { s with index := startWrite f s.index }
    exact (SameVersions.trans (.of_eq rfl) hsymbols').trans (write_rest hchanged hfile)

theorem write_taken (hchanged : fileUnchanged f s.index = false) {x : SymbolInfo}
    (hx : x ∈ f.canonicalSymbols) (filterSmall : Bool) :
    if keepsSummary g f (oldSymbols s f.relPath) s.summaries.rows x then
      SameVersions (symbolNode f.relPath x.name) s (s.write g filterSmall f)
    else
      Taken (symbolNode f.relPath x.name) (initialSummary filterSmall x)
        (s.write g filterSmall f) := by
  have hfile : symbolNode f.relPath x.name ≠ fileNode f.relPath := by
    intro h
    exact NodeKind.noConfusion (congrArg Node.kind h)
  have hrest : SameVersions (symbolNode f.relPath x.name) (writeSymbols g filterSmall f s)
      (s.write g filterSmall f) := write_rest hchanged hfile
  have hsymbols := foldl_writeSymbol_taken (g := g) (f := f)
    (s := { s with index := startWrite f s.index }) filterSmall (oldSymbols s f.relPath)
    f.canonicalSymbols f.canonical (fun _ _ => rfl) hx
  split
  · next hkeeps =>
    rw [if_pos hkeeps] at hsymbols
    exact SameVersions.trans hsymbols hrest
  · next hkeeps =>
    rw [if_neg hkeeps] at hsymbols
    exact Taken.congr hsymbols hrest

theorem delete_summaries (path : String) (s : Store) : (s.delete path).summaries = s.summaries :=
  (Store.foldl_deleteNode _ _ _).2.1

theorem formCluster_others {node : Node} (hkind : node.kind ≠ .cluster) (before : Database)
    (existing : List String) (clusters : List NewCluster) (s : Store) :
    SameVersions node s (clusters.foldl (formCluster g before existing) s) := by
  induction clusters generalizing s with
  | nil => exact .of_eq rfl
  | cons k clusters ih =>
    have hnode : node ≠ clusterNode k.name := fun h => hkind (congrArg Node.kind h)
    refine SameVersions.trans ?_ (ih _)
    exact SameVersions.refreshed (SameVersions.trans (.of_eq rfl)
      (sameVersions_staleIf hnode _ _)) g _

theorem detectClustersFor_summaries (c : PostprocessConfig) (scope : List String) (s : Store) :
    (s.detectClustersFor g c scope).summaries = ((newClusters c scope s.index).foldl
      (formCluster g s.index (namesInScope scope s.index))
      { s with index := dropClusters scope s.index }).summaries :=
  (Store.foldl_deleteNode _ _ _).2.1

theorem SameVersions.indexed {s : Store} {node : Node} (d : Database) :
    SameVersions node s { s with index := d } := rfl

theorem detectClustersFor_others {node : Node} (hkind : node.kind ≠ .cluster)
    (c : PostprocessConfig) (scope : List String) (s : Store) :
    SameVersions node s (s.detectClustersFor g c scope) := by
  have hformed := formCluster_others (g := g) hkind s.index (namesInScope scope s.index)
    (newClusters c scope s.index) { s with index := dropClusters scope s.index }
  rw [SameVersions, detectClustersFor_summaries]
  exact hformed

theorem run_others {node : Node} (hkind : node.kind ≠ .cluster) (c : PostprocessConfig)
    (s : Store) : SameVersions node s (s.run g c) := by
  unfold Store.run Store.detectClusters
  exact (SameVersions.indexed _).trans (detectClustersFor_others hkind c _ _)

theorem runIncremental_others {node : Node} (hkind : node.kind ≠ .cluster)
    (c : PostprocessConfig) (delta : ScanDelta) (s : Store) :
    SameVersions node s (s.runIncremental g c delta) := by
  unfold Store.runIncremental
  exact (SameVersions.indexed _).trans (detectClustersFor_others hkind c _ _)

end Writes

section Watching

/-- A store with the numbers of the versions that others put in, and with the text that the
last write of each symbol would have taken from its docstring. -/
structure Watched where
  store : Store
  foreign : List Nat
  derived : String → String → Option String

/-- The versions that are there at the start are others'. -/
def Watched.start (s : Store) : Watched :=
  ⟨s, s.summaries.rows.map SummaryVersion.id, fun _ _ => none⟩

def takenText (filterSmall : Bool) (f : FileFacts) (name : String) : Option String :=
  (f.canonicalSymbols.find? (·.name == name)).bind (initialSummary filterSmall)

def nextVersion (s : Store) (node : Node) : Nat :=
  ((s.summaries.rows.filter (·.node == node)).map SummaryVersion.version).max?.getD 0 + 1

/-- What happens to an index: it is scanned, or others write a summary. -/
inductive IndexEvent where
  | full (filterSmall : Bool) (c : PostprocessConfig) (src : Sources) (delivered : List FileOutcome)
  | files (filterSmall : Bool) (c : PostprocessConfig) (src : Sources) (requested : List String)
      (delivered : List FileOutcome)
  | summarised (node : Node) (summary : Option String) (status : Status)

namespace Watched

variable (g : Digests) (filterSmall : Bool)

/-- A file whose facts are those stored is not written, and its docstrings are the same. -/
def applyOp (w : Watched) : FileOp → Watched
  | .write f =>
    { store := w.store.write g filterSmall f
      foreign := w.foreign
      derived := if fileUnchanged f w.store.index then w.derived
        else fun path name => if path = f.relPath then takenText filterSmall f name
          else w.derived path name }
  | .delete path => { w with store := w.store.delete path }

def step (w : Watched) : IndexEvent → Watched
  | .full filterSmall c src delivered =>
    let w' := run (applyOp g filterSmall) w (scanFullOps g.toHashes src delivered w.store.index)
    { w' with store := w'.store.run g c }
  | .files filterSmall c src requested delivered =>
    let ops := scanFilesOps g.toHashes src requested delivered w.store.index
    let w' := run (applyOp g filterSmall) w ops
    { w' with
      store := w'.store.runIncremental g c (Index.applyOps g.toHashes ops w.store.index).2 }
  | .summarised node summary status =>
    { w with
      store := (w.store.insertSummary node (nextVersion w.store node) summary status).refreshNode
        g node
      foreign := w.foreign ++ [w.store.summaries.last + 1] }

theorem run_store (ops : List FileOp) (w : Watched) :
    (run (applyOp g filterSmall) w ops).store = w.store.applyOps g filterSmall ops := by
  induction ops generalizing w with
  | nil => rfl
  | cons op ops ih =>
    rw [run_cons, ih]
    cases op <;> rfl

/-- What is watched is what the scanner does. -/
theorem step_store (w : Watched) :
    (∀ filterSmall c src delivered, (w.step g (.full filterSmall c src delivered)).store =
        w.store.scanFull g filterSmall c src delivered) ∧
      ∀ filterSmall c src requested delivered,
        (w.step g (.files filterSmall c src requested delivered)).store =
          w.store.scanFiles g filterSmall c src requested delivered := by
  constructor
  · intro filterSmall c src delivered
    exact congrArg (Store.run g c) (run_store g filterSmall _ w)
  · intro filterSmall c src requested delivered
    exact congrArg (Store.runIncremental g c _) (run_store g filterSmall _ w)

/-- Where a symbol keeps its summary, its docstring says what it said at the last write; and no
symbol of another file has its reference. -/
structure Renewed (w : Watched) (f : FileFacts) : Prop where
  texts : ∀ x ∈ f.canonicalSymbols,
    keepsSummary g f (oldSymbols w.store f.relPath) w.store.summaries.rows x = true →
      initialSummary filterSmall x = w.derived f.relPath x.name
  refs : ∀ x ∈ f.canonicalSymbols, ∀ r ∈ w.store.index.symbols.rows, r.filePath ≠ f.relPath →
    symbolNode r.filePath r.name ≠ symbolNode f.relPath x.name

def OpFits (w : Watched) : FileOp → Prop
  | .write f => fileUnchanged f w.store.index = false → Renewed g filterSmall w f
  | .delete _ => True

def Fits (w : Watched) : IndexEvent → Prop
  | .full filterSmall _ src delivered => Meets (applyOp g filterSmall) (OpFits g filterSmall) w
      (scanFullOps g.toHashes src delivered w.store.index)
  | .files filterSmall _ src requested delivered =>
    Meets (applyOp g filterSmall) (OpFits g filterSmall) w
      (scanFilesOps g.toHashes src requested delivered w.store.index)
  | .summarised _ _ _ => True

/-- A current summary of a symbol that a write put in has the text of the docstring as it was
last parsed. -/
def Followed (w : Watched) : Prop :=
  ∀ r ∈ w.store.index.symbols.rows, ∀ id,
    (selectCurrentSummary w.store.summaries.rows (symbolNode r.filePath r.name)).id = some id →
      id ∉ w.foreign →
        (selectCurrentSummary w.store.summaries.rows (symbolNode r.filePath r.name)).short =
          w.derived r.filePath r.name

end Watched

section Steps

variable {g : Digests} {filterSmall : Bool} {w : Watched} {f : FileFacts}

theorem symbolNode_ne_file (path name path' : String) : symbolNode path name ≠ fileNode path' := by
  intro h
  exact NodeKind.noConfusion (congrArg Node.kind h)

theorem takenText_eq {x : SymbolInfo} (hx : x ∈ f.canonicalSymbols) :
    takenText filterSmall f x.name = initialSummary filterSmall x := by
  have hfind : f.canonicalSymbols.find? (·.name == x.name) = some x := by
    cases hfound : f.canonicalSymbols.find? (·.name == x.name) with
    | none => exact absurd (beq_self_eq_true _) (List.find?_eq_none.mp hfound x hx)
    | some y =>
      have hname : y.name = x.name := by simpa using List.find?_some hfound
      rw [List.inj_on_of_nodup_map f.canonical (List.mem_of_find?_eq_some hfound) hx hname]
  rw [takenText, hfind, Option.bind_some]

theorem write_symbols {s : Store} (hchanged : fileUnchanged f s.index = false) :
    (s.write g filterSmall f).index.symbols.rows =
      (s.index.symbols.rows.filter fun r => !(r.filePath == f.relPath)) ++
        f.canonicalSymbols.map (f.symbolRow g.toHashes) := by
  rw [write_index, writeFileFacts, if_neg (by rw [hchanged]; decide)]
  rfl

theorem keepsSummary_old {s : Store} {x : SymbolInfo}
    (h : keepsSummary g f (oldSymbols s f.relPath) s.summaries.rows x = true) :
    ∃ r ∈ s.index.symbols.rows, r.filePath = f.relPath ∧ r.name = x.name := by
  have hany := (Bool.and_eq_true_iff.mp h).1
  unfold hashUnchanged at hany
  cases hfound : (oldSymbols s f.relPath).find? (·.name == x.name) with
  | none =>
    rw [hfound] at hany
    cases hany
  | some r =>
    have hmem := List.mem_filter.mp (List.mem_of_find?_eq_some hfound)
    exact ⟨r, hmem.1, beq_iff_eq.mp hmem.2, by simpa using List.find?_some hfound⟩

theorem Watched.Followed.write (h : w.Followed)
    (hfits : fileUnchanged f w.store.index = false → w.Renewed g filterSmall f) :
    (w.applyOp g filterSmall (.write f)).Followed := by
  cases hchanged : fileUnchanged f w.store.index with
  | true =>
    have hsame : w.applyOp g filterSmall (.write f) = w := by
      rw [Watched.applyOp, hchanged, Store.write, if_pos hchanged]
      rfl
    rwa [hsame]
  | false =>
    obtain ⟨htexts, hrefs⟩ := hfits hchanged
    have hderived : (w.applyOp g filterSmall (.write f)).derived = fun path name =>
        if path = f.relPath then takenText filterSmall f name else w.derived path name := by
      rw [Watched.applyOp, hchanged]
      rfl
    intro r hr id hid hforeign
    rw [hderived]
    change r ∈ (w.store.write g filterSmall f).index.symbols.rows at hr
    change
      (selectCurrentSummary (w.store.write g filterSmall f).summaries.rows _).id = some id at hid
    change (selectCurrentSummary (w.store.write g filterSmall f).summaries.rows _).short = _
    rw [write_symbols hchanged] at hr
    rcases List.mem_append.mp hr with hr | hr
    · obtain ⟨hr, hpath⟩ := List.mem_filter.mp hr
      have hpath : r.filePath ≠ f.relPath := by simpa using hpath
      have hsame : SameVersions (symbolNode r.filePath r.name) w.store
          (w.store.write g filterSmall f) :=
        write_others (symbolNode_ne_file _ _ _) fun x hx => hrefs x hx r hr hpath
      rw [select_congr hsame] at hid ⊢
      dsimp only
      rw [if_neg hpath]
      exact h r hr id hid hforeign
    · obtain ⟨x, hx, rfl⟩ := List.mem_map.mp hr
      have htaken := write_taken (g := g) (s := w.store) hchanged hx filterSmall
      change (selectCurrentSummary (w.store.write g filterSmall f).summaries.rows
        (symbolNode f.relPath x.name)).short =
          if f.relPath = f.relPath then takenText filterSmall f x.name else _
      rw [if_pos rfl, takenText_eq hx]
      split at htaken
      · next hkeeps =>
        obtain ⟨r, hr, hpath, hname⟩ := keepsSummary_old hkeeps
        have hold := h r hr id
        rw [hpath, hname] at hold
        change (selectCurrentSummary (w.store.write g filterSmall f).summaries.rows
          (symbolNode f.relPath x.name)).id = some id at hid
        rw [select_congr htaken] at hid ⊢
        rw [htexts x hx hkeeps]
        exact hold hid hforeign
      · refine htaken fun hnone => ?_
        cases Eq.trans (Eq.symm hnone) hid

theorem Watched.Followed.delete (h : w.Followed) (path : String) :
    (w.applyOp g filterSmall (.delete path)).Followed := by
  intro r hr id hid hforeign
  change r ∈ (w.store.delete path).index.symbols.rows at hr
  change (selectCurrentSummary (w.store.delete path).summaries.rows _).id = some id at hid
  change (selectCurrentSummary (w.store.delete path).summaries.rows _).short = _
  rw [delete_summaries] at hid ⊢
  rw [delete_index, (deleteFile_dropped path w.store.index).symbols] at hr
  exact h r (List.mem_filter.mp hr).1 id hid hforeign

theorem Watched.Followed.applyOps (h : w.Followed) {ops : List FileOp}
    (hfits : Meets (Watched.applyOp g filterSmall) (Watched.OpFits g filterSmall) w ops) :
    (run (Watched.applyOp g filterSmall) w ops).Followed := by
  refine run_invariant (fun w op hw hop => ?_) h hfits
  cases op with
  | write f => exact hw.write hop
  | delete path => exact hw.delete path

/-- The passes after the writes keep the symbols and their summaries. -/
theorem Watched.Followed.passed (h : w.Followed) {s : Store}
    (hsymbols : s.index.symbols.rows.map withoutBases =
      w.store.index.symbols.rows.map withoutBases)
    (hsame : ∀ node : Node, node.kind ≠ .cluster → SameVersions node w.store s) :
    ({ w with store := s } : Watched).Followed := by
  intro r hr id hid hforeign
  have hmem : withoutBases r ∈ w.store.index.symbols.rows.map withoutBases := by
    rw [← hsymbols]
    exact List.mem_map_of_mem hr
  obtain ⟨r', hr', heq⟩ := List.mem_map.mp hmem
  have hpath : r'.filePath = r.filePath := congrArg (fun r => r.filePath) heq
  have hname : r'.name = r.name := congrArg (fun r => r.name) heq
  have hold := h r' hr' id
  rw [hpath, hname] at hold
  have hkind : (symbolNode r.filePath r.name).kind ≠ .cluster := NodeKind.noConfusion
  change (selectCurrentSummary s.summaries.rows _).id = some id at hid
  change (selectCurrentSummary s.summaries.rows _).short = _
  rw [select_congr (hsame _ hkind)] at hid ⊢
  exact hold hid hforeign

theorem run_symbols (c : PostprocessConfig) (s : Store) :
    (s.run g c).index.symbols.rows.map withoutBases =
      s.index.symbols.rows.map withoutBases := by
  rw [run_index]
  unfold Index.run detectClusters computeFileKinds
  rw [(detectClustersFor_same c _ _).symbols]
  exact (passes_passed (resolveFull_same s.index) c _).lookups.symbols

theorem runIncremental_symbols (c : PostprocessConfig) (delta : ScanDelta) (s : Store) :
    (s.runIncremental g c delta).index.symbols.rows.map withoutBases =
      s.index.symbols.rows.map withoutBases := by
  rw [runIncremental_index]
  unfold Index.runIncremental
  rw [(detectClustersFor_same c _ _).symbols]
  exact (passes_passed (resolveTargets_same delta s.index) c _).lookups.symbols

/-- A version on top is current itself, or stale, or leaves the current one as it was. -/
theorem select_concat {rows : List SummaryVersion} {node : Node} {r : SummaryVersion}
    (hnode : r.node = node) (hbelow : ∀ s ∈ rows, s.node = node → s.version < r.version) :
    (selectCurrentSummary (rows ++ [r]) node).id = none ∨
      (selectCurrentSummary (rows ++ [r]) node).id = some r.id ∨
        selectCurrentSummary (rows ++ [r]) node = selectCurrentSummary rows node := by
  rw [selectCurrentSummary, versionsOf_concat hnode hbelow, selectFrom]
  split
  · exact .inl rfl
  · split
    · split
      · exact .inr (.inl rfl)
      · exact .inr (.inr rfl)
    · exact .inr (.inr rfl)

theorem nextVersion_above (s : Store) {node : Node} {r : SummaryVersion}
    (hr : r ∈ s.summaries.rows) (hnode : r.node = node) : r.version < nextVersion s node := by
  have hin : r.version ∈ (s.summaries.rows.filter (·.node == node)).map SummaryVersion.version :=
    List.mem_map_of_mem (List.mem_filter.mpr ⟨hr, beq_iff_eq.mpr hnode⟩)
  unfold nextVersion
  cases hmax : ((s.summaries.rows.filter (·.node == node)).map SummaryVersion.version).max? with
  | none =>
    rw [List.max?_eq_none_iff.mp hmax] at hin
    cases hin
  | some top => exact Nat.lt_succ_of_le ((List.max?_eq_some_iff.mp hmax).2 _ hin)


theorem Watched.Followed.summarised (h : w.Followed) (node : Node) (summary : Option String)
    (status : Status) : (w.step g (.summarised node summary status)).Followed := by
  intro r hr id hid hforeign
  change id ∉ w.foreign ++ [w.store.summaries.last + 1] at hforeign
  rw [List.mem_append, List.mem_singleton, not_or] at hforeign
  have hindex : (w.step g (.summarised node summary status)).store.index = w.store.index := by
    rw [Watched.step, Store.refreshNode_index]
    rfl
  have hrows : (w.step g (.summarised node summary status)).store.summaries =
      (w.store.insertSummary node (nextVersion w.store node) summary status).summaries :=
    Store.refreshNode_summaries _ _ _
  rw [hindex] at hr
  rw [hrows] at hid ⊢
  change _ = w.derived r.filePath r.name
  by_cases hnode : symbolNode r.filePath r.name = node
  · rw [hnode] at hid ⊢
    have hold := h r hr id
    rw [hnode] at hold
    have hadded : (w.store.insertSummary node (nextVersion w.store node) summary
        status).summaries.rows = w.store.summaries.rows ++ [⟨w.store.summaries.last + 1, node,
          nextVersion w.store node, summary, status⟩] := rfl
    rw [hadded] at hid ⊢
    rcases select_concat (r := ⟨w.store.summaries.last + 1, node, nextVersion w.store node,
      summary, status⟩) rfl fun s hs hsame => nextVersion_above w.store hs hsame with
      hnone | hnew | hsame
    · cases hnone.symm.trans hid
    · exact absurd (Option.some.inj (hid.symm.trans hnew)) hforeign.2
    · rw [hsame] at hid ⊢
      exact hold hid hforeign.1
  · rw [select_congr (sameVersions_insert hnode _ summary status w.store)] at hid ⊢
    exact h r hr id hid hforeign.1

/-- One event keeps what is watched. -/
theorem Watched.Followed.step (h : w.Followed) {e : IndexEvent} (hfits : w.Fits g e) :
    (w.step g e).Followed := by
  cases e with
  | full filterSmall c src delivered =>
    exact (h.applyOps hfits).passed (run_symbols c _) fun node hkind => run_others hkind c _
  | files filterSmall c src requested delivered =>
    exact (h.applyOps hfits).passed (runIncremental_symbols c _ _) fun node hkind =>
      runIncremental_others hkind c _ _
  | summarised node summary status => exact h.summarised node summary status

theorem Watched.Followed.start (s : Store) : (Watched.start s).Followed := by
  intro r hr id hid hforeign
  obtain ⟨v, hv, hvid, -⟩ := selectFrom_id hid
  exact absurd (List.mem_map.mpr ⟨v, (mem_versionsOf.mp hv).1, hvid⟩) hforeign

end Steps

/-- In every history whose writes leave no docstring behind its symbol's hash, each current
summary that a write put in has the text of the docstring as it was last parsed. -/
theorem docstrings_followed (g : Digests) (s : Store) (events : List IndexEvent)
    (h : Meets (Watched.step g) (Watched.Fits g) (.start s) events) :
    (run (Watched.step g) (.start s) events).Followed :=
  run_invariant (fun _ _ hw hfits => hw.step hfits) (Watched.Followed.start s) h

end Watching

section Example

def oldSegment : String := "def run():\n    \"\"\"Runs.\"\"\"\n"

def newSegment : String := "def run():\n    \"\"\"Walks.\"\"\"\n"

/-- A function with a docstring, which is not part of what is hashed. -/
def documentedFacts (structHash segment docstring : String) : FileFacts :=
  { pythonFacts "lib/work.py" structHash [] [] work_named List.nodup_nil with
    canonicalSymbols := [⟨"run", "()", "function", 1, segment, none, some docstring, none,
      some "def run():\n    \n"⟩]
    canonical := List.nodup_singleton _ }

def scanOf (f : FileFacts) : IndexEvent := .full false .default Opening.oneFile [.facts f]

def oldScan : IndexEvent := scanOf (documentedFacts "1" oldSegment "Runs.")

def newScan : IndexEvent := scanOf (documentedFacts "2" newSegment "Walks.")

theorem oldScan_ops : scanFullOps plainDigests.toHashes Opening.oneFile
    [.facts (documentedFacts "1" oldSegment "Runs.")] Database.empty =
      [.write (documentedFacts "1" oldSegment "Runs.")] := by
  have hswept : (dbPaths (Index.applyOps plainDigests.toHashes
      [.write (documentedFacts "1" oldSegment "Runs.")] Database.empty).1).filter
        (fun rel => !List.contains ["lib/work.py"] rel) = [] := by
    decide +kernel
  unfold scanFullOps
  rw [oneFile_discover]
  change [FileOp.write (documentedFacts "1" oldSegment "Runs.")] ++ List.map FileOp.delete
    ((dbPaths (Index.applyOps plainDigests.toHashes
      [.write (documentedFacts "1" oldSegment "Runs.")] Database.empty).1).filter _) = _
  rw [hswept]
  rfl

theorem docstrings_followed_once :
    (run (Watched.step plainDigests) (.start .empty) [oldScan]).Followed := by
  refine docstrings_followed plainDigests .empty [oldScan] ⟨?_, trivial⟩
  change Meets _ _ _ (scanFullOps plainDigests.toHashes Opening.oneFile
    [.facts (documentedFacts "1" oldSegment "Runs.")] Database.empty)
  rw [oldScan_ops]
  refine ⟨fun _ => ⟨fun x _ hkeeps => ?_, fun x _ r hr => ?_⟩, trivial⟩
  · cases hkeeps
  · cases hr

def rescanned : Watched := run (Watched.step plainDigests) (.start .empty) [oldScan, newScan]

/-- The text of the old docstring is still shown after the docstring has been changed. -/
theorem docstring_outlived : ¬ ∀ (g : Digests) (s : Store) (events : List IndexEvent),
    (run (Watched.step g) (.start s) events).Followed := by
  intro h
  have hfollowed : rescanned.Followed := h plainDigests .empty [oldScan, newScan]
  have hrow : ∃ r ∈ rescanned.store.index.symbols.rows,
      symbolNode r.filePath r.name = symbolNode "lib/work.py" "run" ∧
        rescanned.derived r.filePath r.name = some "[Doc] Walks." := by
    decide +kernel
  obtain ⟨r, hr, hnode, hderived⟩ := hrow
  have hshown : (selectCurrentSummary rescanned.store.summaries.rows
      (symbolNode "lib/work.py" "run")).id = some 1 ∧
        (selectCurrentSummary rescanned.store.summaries.rows
          (symbolNode "lib/work.py" "run")).short = some "[Doc] Runs." ∧
        1 ∉ rescanned.foreign := by
    decide +kernel
  have htext := hfollowed r hr 1
  rw [hnode, hderived, hshown.2.1] at htext
  exact absurd (htext hshown.1 hshown.2.2) (by decide)

end Example

end RemyCC.Retrieval
