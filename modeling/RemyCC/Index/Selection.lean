import RemyCC.Relational.Grouping
import RemyCC.Index.Writer
import RemyCC.Text.Words
import Mathlib.Data.Prod.Lex

/-!
# Selecting the canonical symbols

Of the symbols of one name `select_symbols` keeps one and records all of them
as occurrences. The scanner's selection and the Python selection that it
replicates sort by the same keys, so they keep the same symbols.
-/

namespace RemyCC.Index

open Relational Text

/-- Python `re` `\s`. -/
def isPythonReSpace (c : Char) : Bool := isWhitespace c || (0x1c ≤ c.toNat && c.toNat ≤ 0x1f)

def normalizeSignature (args : String) : String :=
  String.ofList ([' '].intercalate
    ((args.toList.splitOnP isPythonReSpace).filter fun part => !part.isEmpty))

def stableKeyCmp : SymbolInfo → SymbolInfo → Ordering :=
  compareLex (compareOn SymbolInfo.lineno) <|
  compareLex (compareOn fun s => s.endLineno.getD s.lineno) <|
  compareLex (compareOn SymbolInfo.name) <|
  compareLex (compareOn SymbolInfo.symType) <|
  compareLex (compareOn fun s => normalizeSignature s.args) <|
  compareLex (compareOn SymbolInfo.sourceSegment) <|
  compareLex (compareOn fun s => s.docstring.getD "")
    (compareOn fun s => s.bases.getD [])

instance : Std.TransCmp stableKeyCmp := inferInstanceAs (Std.TransCmp (compareLex _ _))

def extentSpan (s : SymbolInfo) : Int := max (s.endLineno.getD s.lineno - s.lineno) 0

def hasSegment (s : SymbolInfo) : Bool := s.sourceSegment != ""

def sourceExtentCmp (a b : SymbolInfo) : Ordering :=
  (compare (hasSegment b) (hasSegment a)).then <|
  (compare (extentSpan b) (extentSpan a)).then <|
  (compare b.sourceSegment.length a.sourceSegment.length).then <|
  stableKeyCmp a b

def classify (symbols : List SymbolInfo) : ConflictKind :=
  if 1 < (sortedSet (symbols.map SymbolInfo.symType)).length then .typeVariant
  else if 1 < (sortedSet (symbols.map fun s => normalizeSignature s.args)).length then
    .signatureVariant
  else .duplicateDefinition

structure SelectedOccurrence where
  symbol : SymbolInfo
  occurrenceIndex : Nat
  isCanonical : Bool
  conflictKind : ConflictKind
  selectionReason : String
  deriving DecidableEq, Repr

structure Selection where
  canonicalSymbols : List SymbolInfo
  occurrences : List SelectedOccurrence
  deriving DecidableEq, Repr

/-- A later row takes over only if it is strictly less. -/
def firstLeast {α : Type} (less : α → α → Bool) (first : α) (rest : List α) : α :=
  rest.foldl (fun best r => if less r best then r else best) first

def selectionReason (kind : ConflictKind) : String :=
  if kind = .signatureVariant then "earliest_source_position"
  else "max_source_extent_then_position"

/-- What one name adds to the canonical symbols and to the occurrences. A group
of the map is never empty. -/
def selectGroup : List SymbolInfo → List SymbolInfo × List SelectedOccurrence
  | [] => ([], [])
  | [only] => ([only], [])
  | first :: second :: rest =>
    let ordered := first :: second :: rest
    let kind := classify ordered
    let selected :=
      if kind = .signatureVariant then (first, 0)
      else firstLeast (fun a b => sourceExtentCmp a.1 b.1 == .lt) (first, 0)
        ((second :: rest).zipIdx 1)
    ([selected.1], ordered.zipIdx.map fun s =>
      ⟨s.1, s.2, s.2 == selected.2, kind, selectionReason kind⟩)

/-- The groups come in the order of their names. -/
def selectSymbols (symbols : List SymbolInfo) : Selection :=
  let selected := (orderBy (compareOn Prod.fst) (groupsBy SymbolInfo.name symbols)).map fun group =>
    selectGroup (orderBy stableKeyCmp group.2)
  { canonicalSymbols := orderBy stableKeyCmp (selected.flatMap Prod.fst)
    occurrences := selected.flatMap Prod.snd }

section Python

/-- An object of the interpreter, with the identity that `id` reports. -/
structure PySymbol where
  id : Nat
  info : SymbolInfo
  deriving DecidableEq, Repr

structure PyOccurrence where
  symbol : PySymbol
  occurrenceIndex : Nat
  isCanonical : Bool
  conflictKind : ConflictKind
  selectionReason : String
  deriving DecidableEq, Repr

structure PySelection where
  canonicalSymbols : List PySymbol
  occurrences : List PyOccurrence
  deriving DecidableEq, Repr

/-- `re.sub(r"\s+", " ", ·)`. -/
def collapseRuns : Bool → List Char → List Char
  | _, [] => []
  | inRun, c :: rest =>
    if isPythonReSpace c then
      if inRun then collapseRuns true rest else ' ' :: collapseRuns true rest
    else c :: collapseRuns false rest

def pyStrip (text : List Char) : List Char :=
  (text.dropWhile isPythonReSpace).rdropWhile isPythonReSpace

def pyNormalizeSignature (args : String) : String :=
  String.ofList (pyStrip (collapseRuns false args.toList))

/-- Tuples are compared item by item. -/
def pyStableKeyCmp : SymbolInfo → SymbolInfo → Ordering :=
  compareLex (compareOn SymbolInfo.lineno) <|
  compareLex (compareOn fun s => s.endLineno.getD s.lineno) <|
  compareLex (compareOn SymbolInfo.name) <|
  compareLex (compareOn SymbolInfo.symType) <|
  compareLex (compareOn fun s => pyNormalizeSignature s.args) <|
  compareLex (compareOn SymbolInfo.sourceSegment) <|
  compareLex (compareOn fun s => s.docstring.getD "")
    (compareOn fun s => s.bases.getD [])

def pySourceExtentCmp : SymbolInfo → SymbolInfo → Ordering :=
  compareLex (compareOn fun s => -((hasSegment s).toNat : Int)) <|
  compareLex (compareOn fun s => -max 0 (s.endLineno.getD s.lineno - s.lineno)) <|
  compareLex (compareOn fun s => -(s.sourceSegment.length : Int)) pyStableKeyCmp

def pyClassify (symbols : List PySymbol) : ConflictKind :=
  if 1 < (symbols.map fun o => o.info.symType).dedup.length then .typeVariant
  else if 1 < (symbols.map fun o => pyNormalizeSignature o.info.args).dedup.length then
    .signatureVariant
  else .duplicateDefinition

def pySelectGroup : List PySymbol → List PySymbol × List PyOccurrence
  | [] => ([], [])
  | [only] => ([only], [])
  | first :: second :: rest =>
    let ordered := first :: second :: rest
    let kind := pyClassify ordered
    let selected :=
      if kind = .signatureVariant then first
      else firstLeast (fun a b => pySourceExtentCmp a.info b.info == .lt) first (second :: rest)
    ([selected], ordered.zipIdx.map fun s =>
      ⟨s.1, s.2, s.1.id == selected.id, kind, selectionReason kind⟩)

def pySelectSymbols (symbols : List PySymbol) : PySelection :=
  let groups := groupsBy (fun o : PySymbol => o.info.name) symbols
  let selected := (orderBy compare (groups.map Prod.fst)).map fun name =>
    pySelectGroup (orderBy (fun a b => pyStableKeyCmp a.info b.info)
      (((groups.find? fun group => group.1 == name).map Prod.snd).getD []))
  { canonicalSymbols := orderBy (fun a b => pyStableKeyCmp a.info b.info)
      (selected.flatMap Prod.fst)
    occurrences := selected.flatMap Prod.snd }

end Python

section Signatures

theorem collapseRuns_eq (inRun : Bool) (text : List Char) :
    collapseRuns inRun text = collapse isPythonReSpace inRun text := by
  induction text generalizing inRun with
  | nil => rfl
  | cons c rest ih => simp only [collapseRuns, collapse, ih]

theorem pyNormalizeSignature_eq : pyNormalizeSignature = normalizeSignature := by
  funext args
  unfold pyNormalizeSignature pyStrip
  rw [collapseRuns_eq, strip_collapse (by decide)]
  rfl

end Signatures

section Least

variable {α β : Type} {less : α → α → Bool} {less' : β → β → Bool} {first : α} {rest : List α}

theorem firstLeast_cons (next : α) : firstLeast less first (next :: rest) =
    firstLeast less (if less next first then next else first) rest := rfl

theorem firstLeast_mem : firstLeast less first rest ∈ first :: rest := by
  induction rest generalizing first with
  | nil => exact List.mem_cons_self
  | cons next rest ih =>
    rw [firstLeast_cons]
    have hrest : firstLeast less (if less next first then next else first) rest ∈
        (if less next first then next else first) :: rest := ih
    rcases List.mem_cons.mp hrest with h | h
    · rw [h]
      split <;> simp
    · exact List.mem_cons_of_mem _ (List.mem_cons_of_mem _ h)

theorem map_firstLeast (f : α → β) (hless : ∀ a b, less' (f a) (f b) = less a b) :
    f (firstLeast less first rest) = firstLeast less' (f first) (rest.map f) := by
  induction rest generalizing first with
  | nil => rfl
  | cons next rest ih =>
    rw [firstLeast_cons, ih, List.map_cons, firstLeast_cons, hless, apply_ite f]

theorem firstLeast_isLE {cmp : α → α → Ordering} [Std.TransCmp cmp]
    (hless : ∀ a b, less a b = (cmp a b == .lt)) :
    ∀ x ∈ first :: rest, (cmp (firstLeast less first rest) x).isLE = true := by
  induction rest generalizing first with
  | nil =>
    intro x hx
    rw [List.mem_singleton.mp hx]
    exact Std.ReflCmp.isLE_rfl
  | cons next rest ih =>
    have hkept := @ih (if less next first then next else first)
    have hstart := hkept _ List.mem_cons_self
    rw [firstLeast_cons]
    intro x hx
    rcases List.mem_cons.mp hx with rfl | hx
    · -- The first row either stays the best so far or gives way to a lesser one.
      refine Std.TransCmp.isLE_trans hstart ?_
      split
      · next hlt =>
        rw [hless, beq_iff_eq] at hlt
        exact Ordering.isLE_of_eq_lt hlt
      · exact Std.ReflCmp.isLE_rfl
    rcases List.mem_cons.mp hx with rfl | hx
    · refine Std.TransCmp.isLE_trans hstart ?_
      split
      · exact Std.ReflCmp.isLE_rfl
      · next hnot =>
        rw [hless, beq_iff_eq] at hnot
        have hswap : cmp first x = (cmp x first).swap := Std.OrientedCmp.eq_swap
        rw [hswap]
        cases hcmp : cmp x first with
        | lt => exact absurd hcmp hnot
        | eq => rfl
        | gt => rfl
    · exact hkept x (List.mem_cons_of_mem _ hx)

end Least

section Keys

theorem compare_neg (a b : Int) : compare (-a) (-b) = compare b a := by
  rcases lt_trichotomy a b with h | h | h
  · rw [compare_gt_iff_gt.mpr (Int.neg_lt_neg h), compare_gt_iff_gt.mpr h]
  · rw [h, compare_eq_iff_eq.mpr rfl, compare_eq_iff_eq.mpr rfl]
  · rw [compare_lt_iff_lt.mpr (Int.neg_lt_neg h), compare_lt_iff_lt.mpr h]

theorem compare_toNat (a b : Bool) : compare a.toNat b.toNat = compare a b := by
  cases a <;> cases b <;> rfl

theorem compare_natCast (a b : Nat) : compare (a : Int) b = compare a b := by
  rcases lt_trichotomy a b with h | h | h
  · rw [compare_lt_iff_lt.mpr h, compare_lt_iff_lt.mpr (Int.ofNat_lt.mpr h)]
  · rw [h, compare_eq_iff_eq.mpr rfl, compare_eq_iff_eq.mpr rfl]
  · rw [compare_gt_iff_gt.mpr h, compare_gt_iff_gt.mpr (Int.ofNat_lt.mpr h)]

theorem pyStableKeyCmp_eq : pyStableKeyCmp = stableKeyCmp := by
  rw [pyStableKeyCmp, pyNormalizeSignature_eq]
  rfl

theorem pySourceExtentCmp_eq : pySourceExtentCmp = sourceExtentCmp := by
  funext a b
  simp only [pySourceExtentCmp, sourceExtentCmp, compareLex, compareOn, compare_neg, compare_toNat,
    compare_natCast, pyStableKeyCmp_eq, extentSpan, max_comm]

instance : Std.TransCmp sourceExtentCmp := by
  rw [← pySourceExtentCmp_eq]
  have hstable : Std.TransCmp pyStableKeyCmp := pyStableKeyCmp_eq ▸ inferInstance
  exact inferInstanceAs (Std.TransCmp (compareLex _ _))

/-- What makes a symbol the larger of two, before their stable keys are asked. -/
def extent (s : SymbolInfo) : Bool ×ₗ Int ×ₗ Nat :=
  toLex (hasSegment s, toLex (extentSpan s, s.sourceSegment.length))

theorem extent_of_isLE {s t : SymbolInfo} (h : (sourceExtentCmp s t).isLE = true) :
    extent t < extent s ∨ extent t = extent s ∧ (stableKeyCmp s t).isLE = true := by
  unfold sourceExtentCmp at h
  simp only [extent, Prod.Lex.toLex_lt_toLex, toLex_inj, Prod.mk.injEq]
  rcases lt_trichotomy (hasSegment t) (hasSegment s) with hlt | heq | hgt
  · exact .inl (.inl hlt)
  · rw [compare_eq_iff_eq.mpr heq, Ordering.eq_then] at h
    rcases lt_trichotomy (extentSpan t) (extentSpan s) with hlt | heq' | hgt
    · exact .inl (.inr ⟨heq, .inl hlt⟩)
    · rw [compare_eq_iff_eq.mpr heq', Ordering.eq_then] at h
      rcases lt_trichotomy t.sourceSegment.length s.sourceSegment.length with hlt | hlen | hgt
      · exact .inl (.inr ⟨heq, .inr ⟨heq', hlt⟩⟩)
      · rw [compare_eq_iff_eq.mpr hlen, Ordering.eq_then] at h
        exact .inr ⟨⟨heq, heq', hlen⟩, h⟩
      · rw [compare_gt_iff_gt.mpr hgt] at h
        cases h
    · rw [compare_gt_iff_gt.mpr hgt] at h
      cases h
  · rw [compare_gt_iff_gt.mpr hgt] at h
    cases h

end Keys

section Groups

/-- The symbols of a name in the order of their stable keys. -/
def orderedOf (name : String) (symbols : List SymbolInfo) : List SymbolInfo :=
  orderBy stableKeyCmp (symbols.filter fun s => s.name = name)

theorem orderedOf_perm (name : String) (symbols : List SymbolInfo) :
    List.Perm (orderedOf name symbols) (symbols.filter fun s => s.name = name) :=
  orderBy_perm _ _

theorem selectSymbols_eq (symbols : List SymbolInfo) :
    selectSymbols symbols =
      { canonicalSymbols := orderBy stableKeyCmp ((sortedSet (symbols.map SymbolInfo.name)).flatMap
          fun name => (selectGroup (orderedOf name symbols)).1)
        occurrences := (sortedSet (symbols.map SymbolInfo.name)).flatMap
          fun name => (selectGroup (orderedOf name symbols)).2 } := by
  simp only [selectSymbols, orderBy_groupsBy, List.map_map, List.flatMap_map]
  rfl

/-- What selection keeps of several symbols. -/
structure Chooses (ordered : List SymbolInfo) (s : SymbolInfo)
    (occurrences : List SelectedOccurrence) : Prop where
  symbols : occurrences.map SelectedOccurrence.symbol = ordered
  indices : occurrences.map SelectedOccurrence.occurrenceIndex = List.range ordered.length
  canonical : (occurrences.filter SelectedOccurrence.isCanonical).map SelectedOccurrence.symbol = [s]
  kinds : ∀ o ∈ occurrences, o.conflictKind = classify ordered ∧
    o.selectionReason = selectionReason (classify ordered)
  earliest : classify ordered = .signatureVariant → ordered.head? = some s
  largest : classify ordered ≠ .signatureVariant →
    ∀ t ∈ ordered, (sourceExtentCmp s t).isLE = true

/-- Marking one place of a list marks the element that stands there. -/
theorem filter_marked {ordered : List SymbolInfo} {s : SymbolInfo} {index : Nat}
    (h : ordered[index]? = some s) :
    (ordered.zipIdx.filter fun p => p.2 == index).map Prod.fst = [s] := by
  have hcount : ∀ (l : List SymbolInfo) (start : Nat), start ≤ index → l[index - start]? = some s →
      ((l.zipIdx start).filter fun p => p.2 == index).map Prod.fst = [s] := by
    intro l
    induction l with
    | nil =>
      intro start _ h
      cases h
    | cons x l ih =>
      intro start hstart h
      rw [List.zipIdx_cons]
      rcases Nat.eq_or_lt_of_le hstart with rfl | hlt
      · rw [Nat.sub_self, List.getElem?_cons_zero, Option.some.injEq] at h
        have hrest : ((l.zipIdx (start + 1)).filter fun p => p.2 == start) = [] := by
          refine List.filter_eq_nil_iff.mpr fun p hp heq => ?_
          have hle := (List.mem_zipIdx hp).1
          have heq : p.2 = start := beq_iff_eq.mp heq
          omega
        rw [List.filter_cons_of_pos (by simp), hrest, h]
        rfl
      · have hindex : index - start = index - (start + 1) + 1 := by omega
        rw [hindex, List.getElem?_cons_succ] at h
        rw [List.filter_cons_of_neg (by simpa using Nat.ne_of_lt hlt)]
        exact ih (start + 1) hlt h
  exact hcount ordered 0 (Nat.zero_le _) h

theorem selectGroup_chooses {ordered : List SymbolInfo} (h : 2 ≤ ordered.length) :
    ∃ s ∈ ordered, (selectGroup ordered).1 = [s] ∧ Chooses ordered s (selectGroup ordered).2 := by
  match ordered, h with
  | first :: second :: rest, _ =>
    generalize hselected : (if classify (first :: second :: rest) = .signatureVariant then (first, 0)
      else firstLeast (fun a b => sourceExtentCmp a.1 b.1 == .lt) (first, 0)
        ((second :: rest).zipIdx 1)) = selected
    have hmem : selected ∈ (first :: second :: rest).zipIdx := by
      rw [List.zipIdx_cons, ← hselected]
      split
      · exact List.mem_cons_self
      · exact firstLeast_mem
    have hplace : (first :: second :: rest)[selected.2]? = some selected.1 :=
      List.mem_zipIdx_iff_getElem?.mp hmem
    have hgroup : selectGroup (first :: second :: rest) =
        ([selected.1], (first :: second :: rest).zipIdx.map fun s =>
          ⟨s.1, s.2, s.2 == selected.2, classify (first :: second :: rest),
            selectionReason (classify (first :: second :: rest))⟩) := by
      rw [← hselected]
      rfl
    rw [hgroup]
    refine ⟨selected.1, List.mem_of_getElem? hplace, rfl, ?_⟩
    refine ⟨?_, ?_, ?_, ?_, fun hkind => ?_, fun hkind => ?_⟩
    · rw [List.map_map]
      exact List.zipIdx_map_fst 0 _
    · rw [List.map_map]
      exact List.zipIdx_map_snd 0 _ |>.trans List.range_eq_range'.symm
    · rw [List.filter_map, List.map_map]
      exact filter_marked hplace
    · intro o ho
      obtain ⟨p, -, rfl⟩ := List.mem_map.mp ho
      exact ⟨rfl, rfl⟩
    · rw [← hselected, if_pos hkind]
      rfl
    · rw [← hselected, if_neg hkind, @map_firstLeast _ _ _
        (fun a b : SymbolInfo => sourceExtentCmp a b == .lt) _ _ Prod.fst fun _ _ => rfl,
        List.zipIdx_map_fst]
      exact firstLeast_isLE fun _ _ => rfl

theorem selectGroup_symbols (ordered : List SymbolInfo) :
    (∀ s ∈ (selectGroup ordered).1, s ∈ ordered) ∧
      ∀ o ∈ (selectGroup ordered).2, o.symbol ∈ ordered := by
  match ordered with
  | [] => simp [selectGroup]
  | [only] => simp [selectGroup]
  | first :: second :: rest =>
    obtain ⟨s, hs, hcanonical, hchooses⟩ := @selectGroup_chooses (first :: second :: rest) (by simp)
    rw [hcanonical]
    refine ⟨fun t ht => List.mem_singleton.mp ht ▸ hs, fun o ho => ?_⟩
    have hmem := List.mem_map_of_mem (f := SelectedOccurrence.symbol) ho
    rwa [hchooses.symbols] at hmem

end Groups

section Selecting

variable {symbols : List SymbolInfo} {name : String}

theorem orderedOf_nil (h : name ∉ symbols.map SymbolInfo.name) : orderedOf name symbols = [] := by
  have hnil : symbols.filter (fun s => s.name = name) = [] :=
    List.filter_eq_nil_iff.mpr fun s hs hname =>
      h (List.mem_map.mpr ⟨s, hs, of_decide_eq_true hname⟩)
  rw [orderedOf, hnil]
  rfl

theorem name_of_mem_orderedOf {s : SymbolInfo} (h : s ∈ orderedOf name symbols) : s.name = name :=
  of_decide_eq_true (List.mem_filter.mp (mem_orderBy.mp h)).2

theorem nodup_names (symbols : List SymbolInfo) :
    (sortedSet (symbols.map SymbolInfo.name)).Nodup :=
  (orderBy_perm _ _).nodup_iff.mpr (List.nodup_dedup _)

theorem occurrences_of_name (name : String) (symbols : List SymbolInfo) :
    (selectSymbols symbols).occurrences.filter (fun o => o.symbol.name = name) =
      (selectGroup (orderedOf name symbols)).2 := by
  rw [selectSymbols_eq]
  refine (filter_flatMap_keyed (nodup_names symbols) _ (fun k o ho => ?_) name).trans ?_
  · exact name_of_mem_orderedOf ((selectGroup_symbols _).2 o ho)
  · split
    · rfl
    · next hnot =>
      rw [orderedOf_nil fun h => hnot (mem_sortedSet.mpr h)]
      rfl

theorem canonical_of_name (name : String) (symbols : List SymbolInfo) :
    (selectSymbols symbols).canonicalSymbols.filter (fun s => s.name = name) =
      (selectGroup (orderedOf name symbols)).1 := by
  rw [selectSymbols_eq]
  have hperm := (orderBy_perm stableKeyCmp ((sortedSet (symbols.map SymbolInfo.name)).flatMap
    fun name => (selectGroup (orderedOf name symbols)).1)).filter fun s => s.name = name
  have hkeyed : ((sortedSet (symbols.map SymbolInfo.name)).flatMap
      fun name => (selectGroup (orderedOf name symbols)).1).filter (fun s => s.name = name) =
      (selectGroup (orderedOf name symbols)).1 := by
    refine (filter_flatMap_keyed (nodup_names symbols) _ (fun k s hs => ?_) name).trans ?_
    · exact name_of_mem_orderedOf ((selectGroup_symbols _).1 s hs)
    · split
      · rfl
      · next hnot =>
        rw [orderedOf_nil fun h => hnot (mem_sortedSet.mpr h)]
        rfl
  rw [hkeyed] at hperm
  -- At most one symbol of the name is kept, so the sort cannot have moved it.
  match hgroup : orderedOf name symbols with
  | [] =>
    rw [hgroup] at hperm
    exact hperm.eq_nil
  | [only] =>
    rw [hgroup] at hperm
    exact List.perm_singleton.mp hperm
  | first :: second :: rest =>
    obtain ⟨s, -, hone, -⟩ := @selectGroup_chooses (first :: second :: rest) (by simp)
    rw [hgroup, hone] at hperm
    rw [hone]
    exact List.perm_singleton.mp hperm

/-- What selection owes the symbols of one name. -/
structure Selected (own canonical : List SymbolInfo) (occurrences : List SelectedOccurrence) :
    Prop where
  none : own = [] → canonical = [] ∧ occurrences = []
  alone : ∀ s, own = [s] → canonical = [s] ∧ occurrences = []
  several : 2 ≤ own.length → ∃ s ∈ own, canonical = [s] ∧
    (List.Perm (occurrences.map SelectedOccurrence.symbol) own ∧
      (occurrences.map SelectedOccurrence.symbol).Pairwise fun a b =>
        (stableKeyCmp a b).isLE = true) ∧
    occurrences.map SelectedOccurrence.occurrenceIndex = List.range own.length ∧
    (occurrences.filter SelectedOccurrence.isCanonical).map SelectedOccurrence.symbol = [s] ∧
    (∀ o ∈ occurrences, o.conflictKind = classify own ∧
      o.selectionReason = selectionReason (classify own)) ∧
    (classify own = .signatureVariant → ∀ t ∈ own, (stableKeyCmp s t).isLE = true) ∧
    (classify own ≠ .signatureVariant → ∀ t ∈ own,
      extent t < extent s ∨ extent t = extent s ∧ (stableKeyCmp s t).isLE = true)

theorem classify_eq_of_perm {symbols symbols' : List SymbolInfo} (h : List.Perm symbols symbols') :
    classify symbols = classify symbols' := by
  unfold classify
  rw [sortedSet_eq_of_perm (h.map _), sortedSet_eq_of_perm (h.map _)]

theorem selected_of_name (name : String) (symbols : List SymbolInfo) :
    Selected (symbols.filter fun s => s.name = name)
      ((selectSymbols symbols).canonicalSymbols.filter fun s => s.name = name)
      ((selectSymbols symbols).occurrences.filter fun o => o.symbol.name = name) := by
  rw [canonical_of_name, occurrences_of_name]
  have hperm := orderedOf_perm name symbols
  refine ⟨fun hnil => ?_, fun s hone => ?_, fun hmany => ?_⟩
  · rw [hnil] at hperm
    rw [hperm.eq_nil]
    exact ⟨rfl, rfl⟩
  · rw [hone] at hperm
    rw [List.perm_singleton.mp hperm]
    exact ⟨rfl, rfl⟩
  · obtain ⟨s, hs, hcanonical, hchooses⟩ := selectGroup_chooses (hperm.length_eq ▸ hmany)
    have hkind := classify_eq_of_perm hperm
    have hsorted : (orderedOf name symbols).Pairwise fun a b => (stableKeyCmp a b).isLE = true :=
      orderBy_pairwise _
    refine ⟨s, hperm.mem_iff.mp hs, hcanonical, ?_, ?_, hchooses.canonical, ?_, ?_, ?_⟩
    · rw [hchooses.symbols]
      exact ⟨hperm, hsorted⟩
    · rw [hchooses.indices, hperm.length_eq]
    · rw [← hkind]
      exact hchooses.kinds
    · intro hvariant t ht
      obtain ⟨rest, hrest⟩ := List.head?_eq_some_iff.mp (hchooses.earliest (hkind ▸ hvariant))
      rw [hrest] at hsorted
      rcases List.mem_cons.mp (hrest ▸ hperm.mem_iff.mpr ht) with rfl | ht
      · exact Std.ReflCmp.isLE_rfl
      · exact (List.pairwise_cons.mp hsorted).1 t ht
    · intro hvariant t ht
      exact extent_of_isLE (hchooses.largest (hkind ▸ hvariant) t (hperm.mem_iff.mpr ht))

/-- Selection does not see the order of its input where the stable keys tell the symbols apart. -/
theorem selectSymbols_eq_of_perm {symbols' : List SymbolInfo} (h : List.Perm symbols symbols')
    (hties : ∀ s ∈ symbols, ∀ t ∈ symbols, stableKeyCmp s t = .eq → s = t) :
    selectSymbols symbols' = selectSymbols symbols := by
  have hgroup : ∀ name, orderedOf name symbols' = orderedOf name symbols := fun name =>
    (orderBy_eq_of_perm (h.filter _) fun s hs t ht =>
      hties s (List.mem_filter.mp hs).1 t (List.mem_filter.mp ht).1).symm
  rw [selectSymbols_eq, selectSymbols_eq, sortedSet_eq_of_perm (h.map SymbolInfo.name)]
  simp only [hgroup]

end Selecting

section Facts

theorem count_names (name : String) (symbols : List SymbolInfo) :
    (symbols.map SymbolInfo.name).count name = (symbols.filter fun s => s.name = name).length := by
  rw [List.count, List.countP_map, List.countP_eq_length_filter]
  rfl

/-- No two canonical symbols of a file have one name. -/
theorem selectSymbols_nodup (symbols : List SymbolInfo) :
    ((selectSymbols symbols).canonicalSymbols.map SymbolInfo.name).Nodup := by
  refine List.nodup_iff_count_le_one.mpr fun name => ?_
  rw [count_names, canonical_of_name]
  match orderedOf name symbols with
  | [] => exact Nat.zero_le 1
  | [only] => exact le_rfl
  | first :: second :: rest =>
    obtain ⟨s, -, hone, -⟩ := @selectGroup_chooses (first :: second :: rest) (by simp)
    rw [hone]
    exact le_rfl

/-- No two occurrences of a file have one name and one index. -/
theorem selectSymbols_indexed (symbols : List SymbolInfo) :
    ((selectSymbols symbols).occurrences.map fun o => (o.symbol.name, o.occurrenceIndex)).Nodup := by
  refine List.nodup_iff_count_le_one.mpr fun ⟨name, index⟩ => ?_
  have hcount : ((selectSymbols symbols).occurrences.map fun o =>
      (o.symbol.name, o.occurrenceIndex)).count (name, index) =
      (((selectSymbols symbols).occurrences.filter fun o => o.symbol.name = name).map
        SelectedOccurrence.occurrenceIndex).count index := by
    rw [List.count, List.countP_map, List.count, List.countP_map, List.countP_filter]
    refine List.countP_congr fun o _ => ?_
    simp [Prod.ext_iff, and_comm]
  rw [hcount, occurrences_of_name]
  match orderedOf name symbols with
  | [] => exact Nat.zero_le 1
  | [only] => exact Nat.zero_le 1
  | first :: second :: rest =>
    obtain ⟨s, -, -, hchooses⟩ := @selectGroup_chooses (first :: second :: rest) (by simp)
    rw [hchooses.indices]
    exact List.nodup_iff_count_le_one.mp List.nodup_range index

end Facts

section Agreement

def PyOccurrence.view (o : PyOccurrence) : SelectedOccurrence :=
  ⟨o.symbol.info, o.occurrenceIndex, o.isCanonical, o.conflictKind, o.selectionReason⟩

def PySelection.view (s : PySelection) : Selection :=
  ⟨s.canonicalSymbols.map PySymbol.info, s.occurrences.map PyOccurrence.view⟩

theorem length_sortedSet (values : List String) :
    (sortedSet values).length = values.dedup.length := (orderBy_perm _ _).length_eq

theorem pyClassify_eq (objects : List PySymbol) :
    pyClassify objects = classify (objects.map PySymbol.info) := by
  simp only [pyClassify, classify, length_sortedSet, List.map_map, pyNormalizeSignature_eq]
  rfl

/-- The selected object is the one at the selected place. -/
theorem pySelectGroup_eq {ordered : List PySymbol} (hids : (ordered.map PySymbol.id).Nodup) :
    (pySelectGroup ordered).1.map PySymbol.info = (selectGroup (ordered.map PySymbol.info)).1 ∧
      (pySelectGroup ordered).2.map PyOccurrence.view =
        (selectGroup (ordered.map PySymbol.info)).2 := by
  match ordered with
  | [] => exact ⟨rfl, rfl⟩
  | [only] => exact ⟨rfl, rfl⟩
  | first :: second :: rest =>
    -- Both selections are views of one selection among the objects with their places.
    generalize hplaced : (if classify ((first :: second :: rest).map PySymbol.info) =
      .signatureVariant then (first, 0)
      else firstLeast (fun a b : PySymbol × Nat => sourceExtentCmp a.1.info b.1.info == .lt)
        (first, 0) ((second :: rest).zipIdx 1)) = placed
    have hmem : placed ∈ (first :: second :: rest).zipIdx := by
      rw [List.zipIdx_cons, ← hplaced]
      split
      · exact List.mem_cons_self
      · exact firstLeast_mem
    have hplace := List.mem_zipIdx_iff_getElem?.mp hmem
    have hpy : pySelectGroup (first :: second :: rest) =
        ([placed.1], (first :: second :: rest).zipIdx.map fun s =>
          ⟨s.1, s.2, s.1.id == placed.1.id, classify ((first :: second :: rest).map PySymbol.info),
            selectionReason (classify ((first :: second :: rest).map PySymbol.info))⟩) := by
      have hfst : (if pyClassify (first :: second :: rest) = .signatureVariant then first
          else firstLeast (fun a b : PySymbol => pySourceExtentCmp a.info b.info == .lt) first
            (second :: rest)) = placed.1 := by
        rw [← hplaced, pyClassify_eq, pySourceExtentCmp_eq, apply_ite Prod.fst,
          @map_firstLeast _ _ _ (fun a b : PySymbol => sourceExtentCmp a.info b.info == .lt) _ _
            Prod.fst fun _ _ => rfl, List.zipIdx_map_fst]
      simp only [pySelectGroup]
      rw [hfst, pyClassify_eq]
    have hrust : selectGroup ((first :: second :: rest).map PySymbol.info) =
        ([placed.1.info], ((first :: second :: rest).map PySymbol.info).zipIdx.map fun s =>
          ⟨s.1, s.2, s.2 == placed.2, classify ((first :: second :: rest).map PySymbol.info),
            selectionReason (classify ((first :: second :: rest).map PySymbol.info))⟩) := by
      have hpair : (if classify ((first :: second :: rest).map PySymbol.info) = .signatureVariant
          then (first.info, 0)
          else firstLeast (fun a b : SymbolInfo × Nat => sourceExtentCmp a.1 b.1 == .lt)
            (first.info, 0) (((second :: rest).map PySymbol.info).zipIdx 1)) =
          (placed.1.info, placed.2) := by
        rw [← hplaced, List.zipIdx_map]
        have hmap := @map_firstLeast _ _
          (fun a b : PySymbol × Nat => sourceExtentCmp a.1.info b.1.info == .lt)
          (fun a b : SymbolInfo × Nat => sourceExtentCmp a.1 b.1 == .lt) (first, 0)
          ((second :: rest).zipIdx 1) (Prod.map PySymbol.info id) fun _ _ => rfl
        split
        · rfl
        · exact hmap.symm
      simp only [List.map_cons] at hpair ⊢
      simp only [selectGroup, hpair]
    rw [hpy, hrust, List.zipIdx_map, List.map_map, List.map_map]
    refine ⟨rfl, List.map_congr_left fun p hp => ?_⟩
    have hat := List.mem_zipIdx_iff_getElem?.mp hp
    have hflag : (p.1.id == placed.1.id) = (p.2 == placed.2) := by
      rw [Bool.eq_iff_iff, beq_iff_eq, beq_iff_eq]
      constructor
      · intro hid
        have hleft : ((first :: second :: rest).map PySymbol.id)[p.2]? = some p.1.id := by
          rw [List.getElem?_map, hat]
          rfl
        have hright : ((first :: second :: rest).map PySymbol.id)[placed.2]? = some p.1.id := by
          rw [List.getElem?_map, hplace, hid]
          rfl
        exact (List.getElem?_inj (List.getElem?_eq_some_iff.mp hleft).1 hids).mp
          (hleft.trans hright.symm)
      · intro hindex
        rw [hindex, hplace, Option.some.injEq] at hat
        rw [← hat]
    simp only [Function.comp, PyOccurrence.view, hflag]
    rfl

theorem pySelectSymbols_eq {objects : List PySymbol} (hids : (objects.map PySymbol.id).Nodup) :
    (pySelectSymbols objects).view = selectSymbols (objects.map PySymbol.info) := by
  have hnames : orderBy compare ((groupsBy (fun o : PySymbol => o.info.name) objects).map
      Prod.fst) = sortedSet ((objects.map PySymbol.info).map SymbolInfo.name) := by
    rw [orderBy_keys_groupsBy, List.map_map]
    rfl
  have hgroup : ∀ name ∈ sortedSet ((objects.map PySymbol.info).map SymbolInfo.name),
      ∃ ordered : List PySymbol, (ordered.map PySymbol.id).Nodup ∧
        ordered.map PySymbol.info = orderedOf name (objects.map PySymbol.info) ∧
        orderBy (fun a b => pyStableKeyCmp a.info b.info)
          ((((groupsBy (fun o : PySymbol => o.info.name) objects).find?
            fun group => group.1 == name).map Prod.snd).getD []) = ordered := by
    intro name hname
    rw [mem_sortedSet, List.map_map] at hname
    rw [@find_groupsBy _ _ _ (fun o : PySymbol => o.info.name) objects name hname,
      pyStableKeyCmp_eq]
    refine ⟨_, ?_, ?_, rfl⟩
    · refine ((orderBy_perm _ _).map PySymbol.id).nodup_iff.mpr ?_
      exact hids.sublist (List.filter_sublist.map _)
    · rw [map_orderBy_comp PySymbol.info stableKeyCmp]
      simp only [Option.map_some, Option.getD_some, orderedOf, List.filter_map]
      rfl
  have hviews : ∀ name ∈ sortedSet ((objects.map PySymbol.info).map SymbolInfo.name),
      (pySelectGroup (orderBy (fun a b => pyStableKeyCmp a.info b.info)
        ((((groupsBy (fun o : PySymbol => o.info.name) objects).find?
          fun group => group.1 == name).map Prod.snd).getD []))).1.map PySymbol.info =
            (selectGroup (orderedOf name (objects.map PySymbol.info))).1 ∧
      (pySelectGroup (orderBy (fun a b => pyStableKeyCmp a.info b.info)
        ((((groupsBy (fun o : PySymbol => o.info.name) objects).find?
          fun group => group.1 == name).map Prod.snd).getD []))).2.map PyOccurrence.view =
            (selectGroup (orderedOf name (objects.map PySymbol.info))).2 := by
    intro name hname
    obtain ⟨ordered, hnodup, hinfos, heq⟩ := hgroup name hname
    rw [heq, ← hinfos]
    exact pySelectGroup_eq hnodup
  rw [selectSymbols_eq]
  unfold pySelectSymbols PySelection.view
  simp only [pyStableKeyCmp_eq, map_orderBy_comp PySymbol.info stableKeyCmp, List.map_flatMap,
    List.flatMap_map, hnames]
  rw [pyStableKeyCmp_eq] at hviews
  rw [List.flatMap_congr fun name hname => (hviews name hname).1,
    List.flatMap_congr fun name hname => (hviews name hname).2]

/-- Selection keeps one symbol of each name, records the others, does not depend on the order
of its input, and is what the Python selection makes of objects that hold the symbols. -/
theorem selectSymbols_canonical (symbols : List SymbolInfo) :
    (∀ name, Selected (symbols.filter fun s => s.name = name)
      ((selectSymbols symbols).canonicalSymbols.filter fun s => s.name = name)
      ((selectSymbols symbols).occurrences.filter fun o => o.symbol.name = name)) ∧
    (∀ symbols', List.Perm symbols symbols' →
      (∀ s ∈ symbols, ∀ t ∈ symbols, stableKeyCmp s t = .eq → s = t) →
        selectSymbols symbols' = selectSymbols symbols) ∧
    ∀ objects : List PySymbol, objects.map PySymbol.info = symbols →
      (objects.map PySymbol.id).Nodup → (pySelectSymbols objects).view = selectSymbols symbols :=
  ⟨fun name => selected_of_name name symbols,
    fun _ hperm hties => selectSymbols_eq_of_perm hperm hties,
    fun _ hinfos hids => hinfos ▸ pySelectSymbols_eq hids⟩

end Agreement

end RemyCC.Index
