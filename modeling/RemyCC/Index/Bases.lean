import RemyCC.Index.Content

/-!
# The bases of a Rust type

The bases are derived from the patterns and from columns of the symbols that do
not change, so whatever an earlier pass has left in them has no effect.
-/

namespace RemyCC.Index

open Relational Text

/-- The order of path, line, trait and type. -/
def implOrder : PatternRow → PatternRow → Ordering :=
  compareLex (compareOn PatternRow.filePath) (compareLex (compareOn lineOf)
    (compareLex (compareOn PatternRow.signalName) (compareOn PatternRow.handler)))

instance : Std.TransCmp implOrder :=
  inferInstanceAs (Std.TransCmp (compareLex (compareOn PatternRow.filePath)
    (compareLex (compareOn lineOf) (compareLex (compareOn PatternRow.signalName)
      (compareOn PatternRow.handler)))))

def isRustType (s : SymbolRow) : Bool := s.isType && like "%.rs" s.filePath

/-- A pattern implements a trait for the type that it resolves to. -/
def Contributes (d : Database) (p : PatternRow) (traitName : String) (target : String × String) :
    Prop := p.signalName = some traitName ∧
      ∃ fullType, p.handler = some fullType ∧
        resolveRustImplTarget p.filePath fullType d = some target

/-- The trait that a pattern contributes to a type. -/
def contribution (d : Database) (target : String × String) (p : PatternRow) : Option String :=
  ((traitImplOf p).filter fun t => resolveRustImplTarget t.file t.fullType d == some target).map
    TraitImpl.traitName

structure TraitsFor (d : Database) (target : String × String) (traits : List String) : Prop where
  exactly : ∀ traitName, traitName ∈ traits ↔
    ∃ p ∈ patternsOf "rust_trait_impl" d, Contributes d p traitName target
  distinct : traits.Nodup
  ordered : ∃ patterns, List.Perm patterns (patternsOf "rust_trait_impl" d) ∧
    patterns.Pairwise (fun p q => (implOrder p q).isLE) ∧
    traits = (patterns.filterMap (contribution d target)).eraseDups

def basesText : List String → Option String
  | [] => none
  | traits => some (Json.dumpsDefault (.arr (traits.map .str)))

/-- The same database with other bases. -/
def rebase (bases : SymbolRow → Option String) (d : Database) : Database :=
  { d with symbols := d.symbols.update (fun s => { s with bases := bases s }) fun _ => rfl }

section Traits

variable {d : Database} {target : String × String}

theorem contribution_eq_some {p : PatternRow} {traitName : String} :
    contribution d target p = some traitName ↔ Contributes d p traitName target := by
  unfold contribution traitImplOf Contributes
  cases hsignal : p.signalName with
  | none => simp
  | some signal =>
    cases hhandler : p.handler with
    | none => simp
    | some handler =>
      simp only [Option.map_eq_some_iff, Option.filter_eq_some_iff, Option.some.injEq, beq_iff_eq]
      constructor
      · rintro ⟨t, ⟨rfl, hresolve⟩, rfl⟩
        exact ⟨rfl, handler, rfl, hresolve⟩
      · rintro ⟨rfl, fullType, rfl, hresolve⟩
        exact ⟨_, ⟨rfl, hresolve⟩, rfl⟩

/-- Appending what is not there yet keeps the first occurrences. -/
theorem foldl_append_eraseDups {α : Type} (name : α → String) (items : List α)
    (names : List String) :
    items.foldl (fun names i => if names.contains (name i) then names else names ++ [name i]) names =
      names ++ ((items.map name).filter fun n => !names.contains n).eraseDups := by
  induction items generalizing names with
  | nil => rw [List.foldl_nil, List.map_nil, List.filter_nil, List.eraseDups_nil, List.append_nil]
  | cons i items ih =>
    rw [List.foldl_cons, List.map_cons, ih]
    by_cases hseen : names.contains (name i) = true
    · rw [if_pos hseen, List.filter_cons, hseen]
      rfl
    · have hnew : (!names.contains (name i)) = true := by simpa using hseen
      rw [if_neg hseen, List.filter_cons, hnew, if_pos rfl, List.eraseDups_cons, List.append_assoc,
        List.singleton_append, List.filter_filter]
      have htests : (fun n => !(names ++ [name i]).contains n) =
          fun n => (!n == name i) && !names.contains n := by
        funext n
        rw [Bool.eq_iff_iff]
        simp [and_comm]
      rw [htests]

theorem traitsOf_eq (d : Database) (target : String × String) :
    traitsOf target d = ((orderBy implOrder (patternsOf "rust_trait_impl" d)).filterMap
      (contribution d target)).eraseDups := by
  have hnames : (orderBy implOrder (patternsOf "rust_trait_impl" d)).filterMap
      (contribution d target) = ((traitImpls d).filter fun t =>
        resolveRustImplTarget t.file t.fullType d == some target).map TraitImpl.traitName := by
    unfold traitImpls
    rw [List.filter_filterMap, List.map_filterMap]
    rfl
  unfold traitsOf
  rw [foldl_append_eraseDups, List.nil_append, hnames]
  simp

theorem nodup_eraseDups (names : List String) : names.eraseDups.Nodup := by
  induction hlength : names.length using Nat.strong_induction_on generalizing names with
  | _ n ih =>
    cases names with
    | nil => exact List.nodup_nil
    | cons name names =>
      rw [List.eraseDups_cons, List.nodup_cons]
      have hshorter := List.length_filter_le (fun n => !n == name) names
      rw [List.length_cons] at hlength
      exact ⟨by simp, ih _ (by omega) _ rfl⟩

theorem traitsOf_spec (d : Database) (target : String × String) :
    TraitsFor d target (traitsOf target d) where
  exactly := fun traitName => by
    rw [traitsOf_eq, List.mem_eraseDups, List.mem_filterMap]
    simp only [mem_orderBy, contribution_eq_some]
  distinct := by
    rw [traitsOf_eq]
    exact nodup_eraseDups _
  ordered := ⟨orderBy implOrder (patternsOf "rust_trait_impl" d), orderBy_perm _ _,
    orderBy_pairwise _, traitsOf_eq d target⟩

theorem derivedBases_text (d : Database) (s : SymbolRow) :
    derivedBases d s = basesText (traitsOf s.key d) := by
  unfold derivedBases basesText
  cases traitsOf s.key d <;> rfl

end Traits

section Targets

variable {d : Database}

theorem rebase_rows (bases : SymbolRow → Option String) (d : Database) :
    (rebase bases d).symbols.rows = d.symbols.rows.map fun s => { s with bases := bases s } := rfl

/-- A symbol keeps its place in the order whatever its bases are. -/
theorem symbolKeysWhere_rebase (bases : SymbolRow → Option String) {p : SymbolRow → Bool}
    (hp : ∀ s b, p { s with bases := b } = p s) :
    symbolKeysWhere p (rebase bases d) = symbolKeysWhere p d := by
  have hsort := map_orderBy_comp (fun s : SymbolRow => { s with bases := bases s }) symbolOrder
    (d.symbols.rows.filter p)
  have hfilter : (rebase bases d).symbols.rows.filter p =
      (d.symbols.rows.filter p).map fun s => { s with bases := bases s } := by
    rw [rebase_rows, List.filter_map]
    congr 2
    funext s
    exact hp s _
  unfold symbolKeysWhere
  rw [hfilter, ← hsort, List.map_map]
  rfl

theorem resolveRustImplTarget_rebase (bases : SymbolRow → Option String)
    (implFile fullType : String) : resolveRustImplTarget implFile fullType (rebase bases d) =
      resolveRustImplTarget implFile fullType d := by
  have hexact := @symbolKeysWhere_rebase d bases
    (fun s => s.filePath == implFile && s.name == fullType && s.isType) fun _ _ => rfl
  have hsame := @symbolKeysWhere_rebase d bases
    (fun s => s.filePath == implFile && s.shortName == lastPart '.' fullType && s.isType)
    fun _ _ => rfl
  have hglobal := @symbolKeysWhere_rebase d bases
    (fun s => s.shortName == lastPart '.' fullType && s.isType && like "%.rs" s.filePath)
    fun _ _ => rfl
  unfold resolveRustImplTarget
  simp only [hexact, hsame, hglobal]

theorem derivedBases_rebase (bases : SymbolRow → Option String) (s t : SymbolRow)
    (hkey : s.key = t.key) : derivedBases (rebase bases d) s = derivedBases d t := by
  unfold derivedBases traitsOf
  simp only [resolveRustImplTarget_rebase, hkey]
  rfl

theorem mem_of_onlyOne {α : Type} {xs : List α} {x : α} (h : onlyOne xs = some x) : x ∈ xs := by
  unfold onlyOne at h
  split at h
  · cases h
    exact List.mem_singleton_self _
  · cases h

/-- What a pattern resolves to is a struct or an enum of the index. -/
theorem isType_of_resolve {implFile fullType : String} {target : String × String}
    (h : resolveRustImplTarget implFile fullType d = some target) :
    ∃ s ∈ d.symbols.rows, s.isType = true ∧ s.key = target := by
  have hmem {p : SymbolRow → Bool} (hp : ∀ s, p s = true → s.isType = true)
      (h : onlyOne (symbolKeysWhere p d) = some target) :
      ∃ s ∈ d.symbols.rows, s.isType = true ∧ s.key = target := by
    obtain ⟨s, hs, rfl⟩ := List.mem_map.mp (mem_of_onlyOne h)
    obtain ⟨hs, htest⟩ := List.mem_filter.mp (mem_orderBy.mp hs)
    exact ⟨s, hs, hp s htest, rfl⟩
  unfold resolveRustImplTarget at h
  simp only at h
  split at h
  · next found hexact =>
    cases h
    exact hmem (fun s hs => (Bool.and_eq_true_iff.mp hs).2) hexact
  · split at h
    · exact hmem (fun s hs => (Bool.and_eq_true_iff.mp (Bool.and_eq_true_iff.mp hs).1).2) h
    · exact hmem (fun s hs => (Bool.and_eq_true_iff.mp hs).2) h

end Targets

section Overwriting

variable {d : Database}

theorem overwrite_rows (d : Database) : (overwriteRustTraitBases d).symbols.rows =
    d.symbols.rows.map fun s =>
      if isRustType s then { s with bases := derivedBases d s } else s := rfl

theorem isRustType_overwritten (s : SymbolRow) (bases : Option String) :
    isRustType (if isRustType s then { s with bases := bases } else s) = isRustType s := by
  split <;> rfl

theorem overwrite_as_rebase (d : Database) : overwriteRustTraitBases d =
    rebase (fun s => if isRustType s then derivedBases d s else s.bases) d := by
  unfold overwriteRustTraitBases rebase
  congr 1
  refine Keyed.ext (List.map_congr_left fun s _ => ?_)
  unfold isRustType
  by_cases hrust : (s.isType && like "%.rs" s.filePath) = true
  · simp only [if_pos hrust]
  · simp only [if_neg hrust]

theorem overwrite_idempotent (d : Database) :
    overwriteRustTraitBases (overwriteRustTraitBases d) = overwriteRustTraitBases d := by
  have hderived (s t : SymbolRow) (hkey : s.key = t.key) :
      derivedBases (overwriteRustTraitBases d) s = derivedBases d t := by
    rw [overwrite_as_rebase]
    exact derivedBases_rebase _ s t hkey
  have hsymbols : (overwriteRustTraitBases (overwriteRustTraitBases d)).symbols =
      (overwriteRustTraitBases d).symbols := by
    refine Keyed.ext ?_
    rw [overwrite_rows, overwrite_rows, List.map_map]
    refine List.map_congr_left fun s _ => ?_
    rw [Function.comp_apply, isRustType_overwritten]
    split
    · rw [hderived { s with bases := derivedBases d s } s rfl]
    · rfl
  have hframe : overwriteRustTraitBases (overwriteRustTraitBases d) = { overwriteRustTraitBases d with
      symbols := (overwriteRustTraitBases (overwriteRustTraitBases d)).symbols } := rfl
  rw [hframe, hsymbols]

/-- The derived rows of the Rust types of a database with whatever bases. -/
theorem overwrite_rebase_rows (bases : SymbolRow → Option String) (d : Database) :
    (overwriteRustTraitBases (rebase bases d)).symbols.rows.filter isRustType =
      (overwriteRustTraitBases d).symbols.rows.filter isRustType := by
  rw [overwrite_rows, overwrite_rows, rebase_rows, List.map_map, List.filter_map,
    List.filter_map]
  have htest : (isRustType ∘ (fun s => if isRustType s then
        { s with bases := derivedBases (rebase bases d) s } else s) ∘
          fun s => { s with bases := bases s }) = isRustType := by
    funext s
    rw [Function.comp_apply, Function.comp_apply, isRustType_overwritten]
    rfl
  have htest' : (isRustType ∘ fun s => if isRustType s then
      { s with bases := derivedBases d s } else s) = isRustType := by
    funext s
    rw [Function.comp_apply, isRustType_overwritten]
  rw [htest']
  refine Eq.trans (congrArg (List.map _) (congrArg (fun p => d.symbols.rows.filter p) htest)) ?_
  refine List.map_congr_left fun s hs => ?_
  have hrust : isRustType s = true := (List.mem_filter.mp hs).2
  have hrust' : isRustType { s with bases := bases s } = true := hrust
  rw [Function.comp_apply, if_pos hrust', if_pos hrust, derivedBases_rebase bases { s with bases := bases s } s rfl]

/-- The bases of the Rust types are a function of the facts, and nothing else changes. -/
theorem trait_bases (d : Database) :
    (∀ s ∈ (overwriteRustTraitBases d).symbols.rows, isRustType s = true →
      ∃ traits, TraitsFor d s.key traits ∧ s.bases = basesText traits) ∧
    (∀ bases, (overwriteRustTraitBases (rebase bases d)).symbols.rows.filter isRustType =
      (overwriteRustTraitBases d).symbols.rows.filter isRustType) ∧
    overwriteRustTraitBases (overwriteRustTraitBases d) = overwriteRustTraitBases d ∧
    ((∀ s ∈ d.symbols.rows, ∃ s' ∈ (overwriteRustTraitBases d).symbols.rows,
        s' = { s with bases := s'.bases } ∧ (isRustType s = false → s' = s)) ∧
      (overwriteRustTraitBases d).symbols.rows.length = d.symbols.rows.length ∧
      { overwriteRustTraitBases d with symbols := d.symbols } = d) ∧
    ∀ p, ∀ traitName target traitName' target', Contributes d p traitName target →
      Contributes d p traitName' target' → target = target' ∧
        ∃ s ∈ d.symbols.rows, s.key = target ∧ ∀ s' ∈ d.symbols.rows, s'.key = target → s' = s := by
  refine ⟨fun s hs hrust => ?_, fun bases => overwrite_rebase_rows bases d, overwrite_idempotent d,
    ⟨fun s hs => ?_, ?_, rfl⟩, ?_⟩
  · rw [overwrite_rows] at hs
    obtain ⟨s, -, rfl⟩ := List.mem_map.mp hs
    rw [isRustType_overwritten] at hrust
    rw [if_pos hrust]
    exact ⟨traitsOf s.key d, traitsOf_spec d s.key, derivedBases_text d s⟩
  · refine ⟨_, List.mem_map_of_mem hs, ?_, fun hother => ?_⟩
    · split <;> rfl
    · exact if_neg (Bool.eq_false_iff.mp hother)
  · rw [overwrite_rows, List.length_map]
  · rintro p traitName target traitName' target' ⟨-, fullType, hhandler, hresolve⟩
      ⟨-, fullType', hhandler', hresolve'⟩
    have htype : fullType = fullType' := Option.some.inj (hhandler.symm.trans hhandler')
    have htarget : target = target' := by
      rw [← htype] at hresolve'
      exact Option.some.inj (hresolve.symm.trans hresolve')
    obtain ⟨s, hs, -, hkey⟩ := isType_of_resolve hresolve
    exact ⟨htarget, s, hs, hkey, fun s' hs' hkey' =>
      d.symbols.eq_of_key hs' hs (hkey'.trans hkey.symm)⟩

end Overwriting

end RemyCC.Index
