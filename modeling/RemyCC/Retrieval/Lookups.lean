import RemyCC.Retrieval.Refines

/-!
# What the lookups of a node read

Where the path of no symbol holds a separator, a reference names one symbol.
The facts of a node depend on few columns, and postprocessing before the
clusters leaves all of them as they are.
-/

namespace RemyCC.Retrieval

open Relational Text Index

section References

/-- A path that the reference of a symbol in it can be split after. -/
def Plain (path : String) : Prop := contains path "::" = false ∧ endsWith path ":" = false

instance (path : String) : Decidable (Plain path) := inferInstanceAs (Decidable (_ ∧ _))

theorem beforeChars_append {path rest : List Char} (hnone : beforeChars [':', ':'] path = none)
    (hlast : [':'].isSuffixOf path = false) :
    beforeChars [':', ':'] (path ++ ':' :: ':' :: rest) = some path := by
  induction path with
  | nil => rfl
  | cons c path ih =>
    rw [beforeChars] at hnone
    split at hnone
    · cases hnone
    · next hlead =>
      have hrest : beforeChars [':', ':'] path = none := by
        cases h : beforeChars [':', ':'] path with
        | none => rfl
        | some before =>
          rw [h] at hnone
          cases hnone
      have hsuffix : [':'].isSuffixOf path = false := by
        rw [Bool.eq_false_iff, ne_eq, List.isSuffixOf_iff_suffix] at hlast ⊢
        exact fun h => hlast (h.trans (List.suffix_cons c path))
      have hlead' : [':', ':'].isPrefixOf (c :: path ++ ':' :: ':' :: rest) = false := by
        cases path with
        | nil =>
          have hc : c ≠ ':' := by
            rintro rfl
            exact absurd hlast (by decide)
          simp [List.isPrefixOf, Ne.symm hc]
        | cons c' path => simpa [List.isPrefixOf] using hlead
      rw [List.cons_append, beforeChars, if_neg (by rw [← List.cons_append, hlead']; decide),
        ih hrest hsuffix]
      rfl

theorem splitOnce_symbolRef {path : String} (h : Plain path) (name : String) :
    splitOnce "::" (symbolRef path name) = some (path, name) := by
  have hnone : beforeChars [':', ':'] path.toList = none := by
    simpa [contains] using h.1
  have hlast : [':'].isSuffixOf path.toList = false := h.2
  have hchars : (symbolRef path name).toList = path.toList ++ ':' :: ':' :: name.toList := by
    simp [symbolRef, List.append_assoc]
  have hsep : "::".toList = [':', ':'] := rfl
  unfold splitOnce
  rw [hchars, hsep, beforeChars_append hnone hlast, Option.map_some]
  congr 1
  refine Prod.ext String.ofList_toList ?_
  rw [List.drop_append, List.drop_of_length_le (Nat.le_add_right _ _), List.nil_append,
    Nat.add_sub_cancel_left]
  exact String.ofList_toList

theorem beforeChars_split {sep text before : List Char} (h : beforeChars sep text = some before) :
    before ++ sep ++ text.drop (before.length + sep.length) = text := by
  induction text generalizing before with
  | nil =>
    rw [beforeChars] at h
    split at h
    · next hsep =>
      cases h
      rw [hsep]
      rfl
    · cases h
  | cons c rest ih =>
    rw [beforeChars] at h
    split at h
    · next hlead =>
      cases h
      obtain ⟨tail, htail⟩ := List.isPrefixOf_iff_prefix.mp hlead
      rw [List.nil_append, List.length_nil, Nat.zero_add, ← htail, List.drop_left']
      rfl
    · cases hrest : beforeChars sep rest with
      | none =>
        rw [hrest] at h
        cases h
      | some before' =>
        rw [hrest] at h
        cases h
        have hdrop : (c :: rest).drop ((c :: before').length + sep.length) =
            rest.drop (before'.length + sep.length) := by
          rw [List.length_cons, Nat.add_right_comm, List.drop_succ_cons]
        rw [hdrop, List.cons_append, List.cons_append, ih hrest]

theorem symbolRef_of_splitOnce {ref path name : String} (h : splitOnce "::" ref = some (path, name)) :
    symbolRef path name = ref := by
  unfold splitOnce at h
  obtain ⟨before, hbefore, heq⟩ := Option.map_eq_some_iff.mp h
  obtain ⟨rfl, rfl⟩ := Prod.mk.inj heq
  refine String.toList_injective ?_
  have hsplit := beforeChars_split hbefore
  have hsep : "::".length = 2 := rfl
  simpa [symbolRef, hsep] using hsplit

theorem symbolRef_inj {p q n m : String} (hp : Plain p) (hq : Plain q)
    (h : symbolRef p n = symbolRef q m) : p = q ∧ n = m := by
  have heq := splitOnce_symbolRef hp n
  rw [h, splitOnce_symbolRef hq m] at heq
  cases heq
  exact ⟨rfl, rfl⟩

end References

section Symbols

/-- The paths of all symbols can be told from their names in a reference. -/
def PlainSymbols (d : Database) : Prop := ∀ r ∈ d.symbols.rows, Plain r.filePath

def rowRef (r : SymbolRow) : String := symbolRef r.filePath r.name

variable {d d' : Database} {ref : String}

theorem PlainSymbols.eq_of_ref (h : PlainSymbols d) {r r' : SymbolRow} (hr : r ∈ d.symbols.rows)
    (hr' : r' ∈ d.symbols.rows) (href : rowRef r = rowRef r') : r = r' := by
  obtain ⟨hpath, hname⟩ := symbolRef_inj (h r hr) (h r' hr') href
  exact d.symbols.eq_of_key hr hr' (Prod.ext hpath hname)

theorem findSome?_filter_of_unique {α β : Type} {l : List α} {p : α → Bool} {a : α} (f : α → Option β)
    (ha : a ∈ l) (hp : p a = true) (hall : ∀ b ∈ l, p b = true → b = a) :
    (l.filter p).findSome? f = f a := by
  have hmem : a ∈ l.filter p := List.mem_filter.mpr ⟨ha, hp⟩
  have hsame : ∀ b ∈ l.filter p, b = a := fun b hb =>
    hall b (List.mem_filter.mp hb).1 (List.mem_filter.mp hb).2
  generalize l.filter p = kept at hmem hsame
  clear ha hp hall
  induction kept with
  | nil => cases hmem
  | cons b kept ih =>
    have hb : b = a := hsame b List.mem_cons_self
    rw [List.findSome?_cons, hb]
    cases hf : f a with
    | some y => rfl
    | none =>
      refine List.findSome?_eq_none_iff.mpr fun b' hb' => ?_
      rw [hsame b' (List.mem_cons_of_mem b hb'), hf]

/-- Both lookups of a symbol find the one row that the reference names. -/
theorem loadSymbol_eq (h : PlainSymbols d) (ref : String) :
    loadSymbol d ref = (d.symbols.rows.find? (rowRef · == ref)).bind (symbolFacts d) := by
  unfold loadSymbol
  cases hfind : d.symbols.rows.find? (rowRef · == ref) with
  | none =>
    have hnone (r : SymbolRow) (hr : r ∈ d.symbols.rows) : rowRef r ≠ ref := fun heq =>
      List.find?_eq_none.mp hfind r hr (beq_iff_eq.mpr heq)
    have hfallback : d.symbols.rows.filter (fun s => symbolRef s.filePath s.name == ref) = [] :=
      List.filter_eq_nil_iff.mpr fun r hr heq => hnone r hr (beq_iff_eq.mp heq)
    cases hsplit : splitOnce "::" ref with
    | none =>
      simp only [hfallback]
      rfl
    | some parts =>
      obtain ⟨path, name⟩ := parts
      have hnil : (d.symbols.rows.filter fun s => s.filePath == path && s.name == name) = [] := by
        refine List.filter_eq_nil_iff.mpr fun r hr heq => hnone r hr ?_
        rw [Bool.and_eq_true, beq_iff_eq, beq_iff_eq] at heq
        rw [rowRef, heq.1, heq.2, symbolRef_of_splitOnce hsplit]
      simp only [Option.bind_some, hnil, hfallback, List.findSome?_nil]
      rfl
  | some r =>
    have hr : r ∈ d.symbols.rows := List.mem_of_find?_eq_some hfind
    have hfound := List.find?_some hfind
    have href : rowRef r = ref := beq_iff_eq.mp hfound
    subst href
    have hsplit : splitOnce "::" (rowRef r) = some (r.filePath, r.name) :=
      splitOnce_symbolRef (h r hr) r.name
    have hfirst : (d.symbols.rows.filter fun s => s.filePath == r.filePath && s.name == r.name).findSome?
        (symbolFacts d) = symbolFacts d r := by
      refine findSome?_filter_of_unique _ hr (by simp) fun s hs heq => ?_
      rw [Bool.and_eq_true, beq_iff_eq, beq_iff_eq] at heq
      exact d.symbols.eq_of_key hs hr (Prod.ext heq.1 heq.2)
    have hfallback : (d.symbols.rows.filter fun s => symbolRef s.filePath s.name == rowRef r).findSome?
        (symbolFacts d) = symbolFacts d r :=
      findSome?_filter_of_unique _ hr (beq_self_eq_true _) fun s hs heq =>
        h.eq_of_ref hs hr (beq_iff_eq.mp heq)
    simp only [hsplit, Option.bind_some, hfirst, hfallback]
    cases symbolFacts d r <;> rfl

end Symbols

section Columns

def withoutBases (r : SymbolRow) : SymbolRow := { r with bases := none }

/-- Two databases with the same columns that a lookup of a node reads. -/
structure SameLookups (d d' : Database) : Prop where
  files : d'.files.rows.map fileKey = d.files.rows.map fileKey
  symbols : d'.symbols.rows.map withoutBases = d.symbols.rows.map withoutBases

variable {d d' d'' : Database}

theorem SameLookups.trans (h : SameLookups d d') (h' : SameLookups d' d'') : SameLookups d d'' :=
  ⟨h'.files.trans h.files, h'.symbols.trans h.symbols⟩

theorem SameLookups.of_eq (hfiles : d'.files = d.files) (hsymbols : d'.symbols = d.symbols) :
    SameLookups d d' := ⟨by rw [hfiles], by rw [hsymbols]⟩

theorem SameLookups.file (h : SameLookups d d') (path : String) :
    (d'.file? path).map fileKey = (d.file? path).map fileKey := by
  rw [map_file?, map_file?, h.files]

theorem SameLookups.hasFile (h : SameLookups d d') (path : String) : d'.hasFile path = d.hasFile path := by
  have hsome := congrArg Option.isSome (h.file path)
  rwa [Option.isSome_map, Option.isSome_map] at hsome

theorem symbolFacts_eq (d : Database) (r : SymbolRow) :
    symbolFacts d r = ((d.file? r.filePath).map fileKey).map fun key =>
      { language := key.2.1
        symbolType := some r.type
        filePath := some r.filePath
        name := some r.name
        nameTokens := some r.nameTokens
        signature := some r.args } := by
  rw [Option.map_map]
  rfl

theorem SameLookups.symbolFacts_eq (h : SameLookups d d') {r r' : SymbolRow}
    (hr : withoutBases r' = withoutBases r) : symbolFacts d' r' = symbolFacts d r := by
  obtain ⟨_, _, _, _, _, _, _, _, _, _⟩ := r
  obtain ⟨_, _, _, _, _, _, _, _, _, _⟩ := r'
  cases hr
  rw [Retrieval.symbolFacts_eq, Retrieval.symbolFacts_eq, h.file]

theorem SameLookups.plain (h : SameLookups d d') (hd : PlainSymbols d) : PlainSymbols d' := by
  intro r' hr'
  have hmem : withoutBases r' ∈ d.symbols.rows.map withoutBases :=
    h.symbols ▸ List.mem_map_of_mem hr'
  obtain ⟨r, hr, heq⟩ := List.mem_map.mp hmem
  have hpath : (withoutBases r).filePath = (withoutBases r').filePath :=
    congrArg SymbolRow.filePath heq
  change r.filePath = r'.filePath at hpath
  exact hpath ▸ hd r hr

theorem SameLookups.find_symbol (h : SameLookups d d') (ref : String) :
    (d'.symbols.rows.find? (rowRef · == ref)).map withoutBases =
      (d.symbols.rows.find? (rowRef · == ref)).map withoutBases := by
  have hview (rows : List SymbolRow) : (rows.find? (rowRef · == ref)).map withoutBases =
      (rows.map withoutBases).find? (rowRef · == ref) := by
    rw [List.find?_map]
    rfl
  rw [hview, hview, h.symbols]

theorem SameLookups.loadSymbol_eq (h : SameLookups d d') (hd : PlainSymbols d) (ref : String) :
    loadSymbol d' ref = loadSymbol d ref := by
  rw [Retrieval.loadSymbol_eq (h.plain hd), Retrieval.loadSymbol_eq hd]
  have hfind := h.find_symbol ref
  cases hr : d.symbols.rows.find? (rowRef · == ref) with
  | none =>
    rw [hr] at hfind
    rw [Option.map_eq_none_iff.mp hfind]
    rfl
  | some r =>
    rw [hr] at hfind
    obtain ⟨r', hr', heq⟩ := Option.map_eq_some_iff.mp hfind
    rw [hr', Option.bind_some, Option.bind_some, h.symbolFacts_eq heq]

theorem fileFacts_eq (d : Database) (path : String) :
    (d.file? path).map fileFacts = ((d.file? path).map fileKey).map fun key =>
      { language := key.2.1
        symbolType := none
        filePath := some key.1
        name := some (lastPart '/' key.1)
        nameTokens := some (spaced key.1)
        signature := none } := by
  rw [Option.map_map]
  rfl

/-- Only a lookup of a cluster can tell such databases apart. -/
theorem SameLookups.loadFactDocument_eq (h : SameLookups d d') (hd : PlainSymbols d) {node : Node}
    (hclusters : d'.clusters = d.clusters) :
    loadFactDocument d' node = loadFactDocument d node := by
  obtain ⟨kind, ref⟩ := node
  cases kind with
  | symbol => exact h.loadSymbol_eq hd ref
  | file =>
    rw [loadFactDocument, loadFactDocument, Retrieval.fileFacts_eq, Retrieval.fileFacts_eq, h.file]
  | cluster => rw [loadFactDocument, loadFactDocument, hclusters]

theorem insertAll_symbols (edges : List InferredEdge) (d : Database) :
    (insertAll edges d).symbols = d.symbols := by
  induction edges generalizing d with
  | nil => rfl
  | cons e edges ih =>
    refine (ih _).trans ?_
    unfold insertInferred
    split <;> rfl

theorem runAllSynthesizers_symbols (c : PostprocessConfig) (d : Database) :
    (runAllSynthesizers c d).symbols = d.symbols := by
  unfold runAllSynthesizers
  simp only [insertAll_symbols]

theorem resynthesize_lookups (c : PostprocessConfig) (d : Database) :
    SameLookups d (resynthesize c d) := by
  refine ⟨by rw [(resynthesize_same c d).files], ?_⟩
  unfold resynthesize
  rw [runAllSynthesizers_symbols]
  change (((purgeHeuristicEdges d).symbols.rows.map _).map withoutBases) = _
  rw [List.map_map]
  refine List.map_congr_left fun r _ => ?_
  rw [Function.comp_apply]
  split <;> rfl

theorem computeFileKindsFor_lookups (c : PostprocessConfig) (paths : List String) (d : Database) :
    SameLookups d (computeFileKindsFor c paths d) :=
  ⟨(computeFileKindsFor_same c paths d).files, rfl⟩

end Columns

end RemyCC.Retrieval
