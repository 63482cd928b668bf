import RemyCC.Index.Convergence

/-!
# The tiers of resolution

Where a callee's name is looked for, told apart from how the candidates are
collected: the file of the call, the files that it imports, and the other files
in its language. The collected candidates are the symbols of the tiers that are
consulted, each once and with the score of its tier.
-/

namespace RemyCC.Index

open Relational Text

inductive Tier where
  | sameFile
  | directImport
  | global
  deriving DecidableEq, Repr

section Tiers

variable (d : Database) (e : EdgeRow)

/-- By the stored imports or by a binding that one indexed file alone fits. -/
def Imported (path : String) : Prop :=
  path ∈ (((d.file? e.sourceFile).bind FileRow.imports).map fun text =>
    jsonStrings (jsonArray text)).getD [] ∨
  path ∈ (deriveImportBindings d).supplementsOf e.sourceFile

def Tier.Reaches (path : String) : Tier → Prop
  | .sameFile => path = e.sourceFile
  | .directImport => path ≠ e.sourceFile ∧ Imported d e path
  | .global => path ≠ e.sourceFile ∧ ¬Imported d e path ∧
    inLanguage ((d.file? e.sourceFile).bind FileRow.language) d path

def Tier.Matches (tier : Tier) (s : SymbolRow) : Prop :=
  s ∈ d.symbols.rows ∧ s.bears e.callee ∧ tier.Reaches d e s.filePath

instance : DecidablePred (Imported d e) := fun _ => inferInstanceAs (Decidable (_ ∨ _))

instance (path : String) : ∀ tier : Tier, Decidable (tier.Reaches d e path)
  | .sameFile => inferInstanceAs (Decidable (_ = _))
  | .directImport => inferInstanceAs (Decidable (_ ∧ _))
  | .global => inferInstanceAs (Decidable (_ ∧ _))

instance (tier : Tier) : DecidablePred (tier.Matches d e) :=
  fun _ => inferInstanceAs (Decidable (_ ∧ _))

/-- Bound to a module outside the index, which a call on an object cannot mean. -/
def External : Prop :=
  e.callForm ≠ .attribute ∧ e.callee ∈ (deriveImportBindings d).externalsOf e.sourceFile

def Near : Prop := ∃ tier s, tier ≠ .global ∧ Tier.Matches d e tier s

def Tier.Consulted : Tier → Prop
  | .global => ¬Near d e ∧ ¬External d e
  | .sameFile | .directImport => True

end Tiers

def Tier.score (c : PostprocessConfig) : Tier → Nat
  | .sameFile => c.resolveScoreSameFile
  | .directImport => c.resolveScoreDirectImport
  | .global => c.resolveScoreGlobal

def Tier.entry (c : PostprocessConfig) (tier : Tier) (s : SymbolRow) : String × Nat :=
  (qualifiedName s, tier.score c)

/-- What an edge without a definite answer could mean. -/
def Alternative (c : PostprocessConfig) (d : Database) (e : EdgeRow) (k : String × Nat) : Prop :=
  ∃ (tier : Tier) (s : SymbolRow), tier.Consulted d e ∧ tier.Matches d e s ∧ k = tier.entry c s

section Names

variable {d : Database} {e : EdgeRow} {path : String} {s s' : SymbolRow} {tier tier' : Tier}

theorem mem_foldl_extend {listed extras : List String} :
    path ∈ extras.foldl (fun imports extra =>
        if imports.contains extra then imports else imports ++ [extra]) listed ↔
      path ∈ listed ∨ path ∈ extras := by
  induction extras generalizing listed with
  | nil => simp
  | cons extra extras ih =>
    rw [List.foldl_cons, ih]
    split
    · rename_i hlisted
      have hextra : extra ∈ listed := by simpa using hlisted
      constructor
      · exact Or.imp_right (List.mem_cons_of_mem extra)
      · rintro (h | h)
        · exact .inl h
        · rcases List.mem_cons.mp h with rfl | h
          · exact .inl hextra
          · exact .inr h
    · simp [or_assoc]

theorem mem_importList :
    path ∈ importList (deriveImportBindings d) e.sourceFile d ↔ Imported d e path :=
  mem_foldl_extend

/-- A symbol is found in one tier only. -/
theorem Tier.Matches.tier_eq (h : tier.Matches d e s) (h' : tier'.Matches d e s) : tier = tier' := by
  obtain ⟨-, -, h⟩ := h
  obtain ⟨-, -, h'⟩ := h'
  cases tier <;> cases tier' <;> simp_all [Tier.Reaches]

/-- Without a further `::` in a path, a qualified name is the name of one symbol. -/
theorem qualifiedName_injective (hs : Plain s.filePath) (hs' : Plain s'.filePath)
    (h : qualifiedName s = qualifiedName s') : s.key = s'.key := by
  unfold qualifiedName at h
  have hpath : s.filePath = s'.filePath := by
    have hbefore := beforeFirst_plain hs s.name
    rw [h, beforeFirst_plain hs' s'.name] at hbefore
    exact (Option.some.inj hbefore).symm
  rw [hpath] at h
  have hname : s.name = s'.name := by
    have hlist := congrArg String.toList h
    exact String.toList_inj.mp (by simpa using hlist)
  rw [SymbolRow.key, SymbolRow.key, hpath, hname]

end Names

section Candidates

variable {c : PostprocessConfig} {d : Database} {e : EdgeRow} {s : SymbolRow} {tier : Tier}

theorem symbol_eq_of_qualified (hplain : ∀ s ∈ d.symbols.rows, Plain s.filePath)
    {s s' : SymbolRow} (hs : s ∈ d.symbols.rows) (hs' : s' ∈ d.symbols.rows)
    (h : qualifiedName s = qualifiedName s') : s = s' :=
  d.symbols.eq_of_key hs hs' (qualifiedName_injective (hplain s hs) (hplain s' hs') h)

def foundWhere (p : String → Bool) (name : String) (d : Database) : List SymbolRow :=
  orderBy symbolOrder (d.symbols.rows.filter fun s => p s.filePath && s.bears name)

theorem symbolsWhere_eq_map (p : String → Bool) (name : String) (d : Database) :
    symbolsWhere p name d = (foundWhere p name d).map qualifiedName := rfl

theorem mem_foundWhere {p : String → Bool} {name : String} :
    s ∈ foundWhere p name d ↔ s ∈ d.symbols.rows ∧ p s.filePath ∧ s.bears name := by
  simp [foundWhere]

theorem mem_symbolsWhere {p : String → Bool} {name qualified : String} :
    qualified ∈ symbolsWhere p name d ↔
      ∃ s ∈ d.symbols.rows, p s.filePath ∧ s.bears name ∧ qualifiedName s = qualified := by
  simp [symbolsWhere_eq_map, mem_foundWhere, and_assoc]

theorem symbolsWhere_nodup (hplain : ∀ s ∈ d.symbols.rows, Plain s.filePath)
    (p : String → Bool) (name : String) : (symbolsWhere p name d).Nodup := by
  rw [symbolsWhere_eq_map]
  refine List.Nodup.map_on ?_ ?_
  · intro s hs s' hs' h
    exact symbol_eq_of_qualified hplain (mem_foundWhere.mp hs).1 (mem_foundWhere.mp hs').1 h
  · refine (orderBy_perm symbolOrder _).nodup_iff.mpr (List.Nodup.filter _ ?_)
    exact d.symbols.distinct.of_map _

theorem any_listed {listed : List (String × Nat)} {name : String} :
    (listed.any fun k => k.1 == name) = true ↔ ∃ l ∈ listed, l.1 = name := by
  simp only [List.any_eq_true, beq_iff_eq]

/-- What is listed already stays, and each name is added once, with the score. -/
theorem mem_addUnlessListed {score : Nat} {names : List String} {listed : List (String × Nat)}
    {k : String × Nat} :
    k ∈ names.foldl (addUnlessListed score) listed ↔
      k ∈ listed ∨ (k.2 = score ∧ k.1 ∈ names ∧ ∀ l ∈ listed, l.1 ≠ k.1) := by
  induction names generalizing listed with
  | nil => simp
  | cons name names ih =>
    rw [List.foldl_cons, ih]
    unfold addUnlessListed
    split
    · rename_i hany
      obtain ⟨l, hl, hname⟩ := any_listed.mp hany
      refine or_congr_right (and_congr_right fun _ => ?_)
      rw [List.mem_cons]
      constructor
      · exact fun h => ⟨.inr h.1, h.2⟩
      · rintro ⟨rfl | h, hnew⟩
        · exact absurd hname (hnew l hl)
        · exact ⟨h, hnew⟩
    · rename_i hany
      have hnew : ∀ l ∈ listed, l.1 ≠ name := fun l hl hname => hany (any_listed.mpr ⟨l, hl, hname⟩)
      obtain ⟨q, n⟩ := k
      simp only [List.mem_append, List.mem_singleton, Prod.mk.injEq, List.mem_cons (b := name)]
      constructor
      · rintro ((h | ⟨rfl, rfl⟩) | ⟨hn, hq, hnot⟩)
        · exact .inl h
        · exact .inr ⟨rfl, .inl rfl, hnew⟩
        · exact .inr ⟨hn, .inr hq, fun l hl => hnot l (.inl hl)⟩
      · rintro (h | ⟨hn, hq, hnot⟩)
        · exact .inl (.inl h)
        · by_cases hname : q = name
          · exact .inl (.inr ⟨hname, hn⟩)
          · refine .inr ⟨hn, hq.resolve_left hname, ?_⟩
            rintro l (hl | hl)
            · exact hnot l hl
            · rw [hl]
              exact Ne.symm hname

theorem addUnlessListed_nodup {score : Nat} (names : List String) {listed : List (String × Nat)}
    (h : (listed.map Prod.fst).Nodup) :
    ((names.foldl (addUnlessListed score) listed).map Prod.fst).Nodup := by
  induction names generalizing listed with
  | nil => exact h
  | cons name names ih =>
    refine ih ?_
    unfold addUnlessListed
    split
    · exact h
    · rename_i hany
      have hnew : ∀ l ∈ listed, l.1 ≠ name := fun l hl hname => hany (any_listed.mpr ⟨l, hl, hname⟩)
      rw [List.map_append]
      refine List.nodup_append.mpr ⟨h, by simp, ?_⟩
      rintro q hq q' hq' rfl
      obtain ⟨l, hl, rfl⟩ := List.mem_map.mp hq
      exact hnew l hl (by simpa using hq')

theorem mem_nearCandidates (hplain : ∀ s ∈ d.symbols.rows, Plain s.filePath) {k : String × Nat} :
    k ∈ nearCandidates c (deriveImportBindings d) e d ↔
      ∃ (tier : Tier) (s : SymbolRow), tier ≠ .global ∧ tier.Matches d e s ∧ k = tier.entry c s := by
  have hsame : ∀ {k : String × Nat},
      k ∈ (symbolsWhere (· == e.sourceFile) e.callee d).map (fun q => (q, c.resolveScoreSameFile)) ↔
        ∃ s, Tier.sameFile.Matches d e s ∧ k = Tier.sameFile.entry c s := by
    intro k
    simp only [List.mem_map, mem_symbolsWhere, beq_iff_eq]
    constructor
    · rintro ⟨_, ⟨s, hs, hpath, hbears, rfl⟩, rfl⟩
      exact ⟨s, ⟨hs, hbears, hpath⟩, rfl⟩
    · rintro ⟨s, ⟨hs, hbears, hpath⟩, rfl⟩
      exact ⟨_, ⟨s, hs, hpath, hbears, rfl⟩, rfl⟩
  unfold nearCandidates
  dsimp only
  rw [mem_addUnlessListed, hsame]
  constructor
  · rintro (⟨s, hs, rfl⟩ | ⟨hscore, hname, hnew⟩)
    · exact ⟨.sameFile, s, nofun, hs, rfl⟩
    · obtain ⟨s, hs, hpath, hbears, hqualified⟩ := mem_symbolsWhere.mp hname
      rw [List.contains_iff_mem, mem_importList] at hpath
      refine ⟨.directImport, s, nofun, ⟨hs, hbears, fun hsource => ?_, hpath⟩, ?_⟩
      · exact hnew _ (hsame.mpr ⟨s, ⟨hs, hbears, hsource⟩, rfl⟩) hqualified
      · exact Prod.ext hqualified.symm hscore
  · rintro ⟨tier, s, hnear, hs, rfl⟩
    cases tier with
    | sameFile => exact .inl ⟨s, hs, rfl⟩
    | directImport =>
      obtain ⟨hmem, hbears, hother, himported⟩ := hs
      refine .inr ⟨rfl, mem_symbolsWhere.mpr ⟨s, hmem, ?_, hbears, rfl⟩, ?_⟩
      · exact List.contains_iff_mem.mpr (mem_importList.mpr himported)
      · intro l hl hqualified
        obtain ⟨s', ⟨hmem', -, hsource⟩, rfl⟩ := hsame.mp hl
        rw [symbol_eq_of_qualified hplain hmem' hmem hqualified] at hsource
        exact hother hsource
    | global => exact absurd rfl hnear

theorem nearCandidates_eq_nil (hplain : ∀ s ∈ d.symbols.rows, Plain s.filePath) :
    nearCandidates c (deriveImportBindings d) e d = [] ↔ ¬Near d e := by
  rw [List.eq_nil_iff_forall_not_mem]
  constructor
  · rintro h ⟨tier, s, hnear, hs⟩
    exact h _ ((mem_nearCandidates hplain).mpr ⟨tier, s, hnear, hs, rfl⟩)
  · intro h k hk
    obtain ⟨tier, s, hnear, hs, -⟩ := (mem_nearCandidates hplain).mp hk
    exact h ⟨tier, s, hnear, hs⟩

theorem external_iff : (e.callForm != .attribute &&
      ((deriveImportBindings d).externalsOf e.sourceFile).contains e.callee) = true ↔
    External d e := by
  rw [Bool.and_eq_true, bne_iff_ne, List.contains_iff_mem]
  rfl

theorem resolveCandidates_of_near (hplain : ∀ s ∈ d.symbols.rows, Plain s.filePath)
    (h : Near d e) : resolveCandidates c (deriveImportBindings d) e d =
      nearCandidates c (deriveImportBindings d) e d := by
  unfold resolveCandidates
  split
  · rename_i hnil
    exact absurd h ((nearCandidates_eq_nil hplain).mp hnil)
  · rfl

theorem resolveCandidates_of_external (hplain : ∀ s ∈ d.symbols.rows, Plain s.filePath)
    (h : ¬Near d e) (hexternal : External d e) :
    resolveCandidates c (deriveImportBindings d) e d = [] := by
  unfold resolveCandidates
  rw [(nearCandidates_eq_nil hplain).mpr h]
  exact if_pos (external_iff.mpr hexternal)

theorem resolveCandidates_of_global (hplain : ∀ s ∈ d.symbols.rows, Plain s.filePath)
    (h : Tier.global.Consulted d e) : resolveCandidates c (deriveImportBindings d) e d =
      (globalSymbols c e d).map fun q => (q, c.resolveScoreGlobal) := by
  unfold resolveCandidates
  rw [(nearCandidates_eq_nil hplain).mpr h.1]
  exact if_neg fun hexternal => h.2 (external_iff.mp hexternal)

/-- The symbols of the last tier, before the cap cuts them off. -/
def foundElsewhere (d : Database) (e : EdgeRow) : List SymbolRow :=
  foundWhere (fun path => path != e.sourceFile &&
    inLanguage ((d.file? e.sourceFile).bind FileRow.language) d path) e.callee d

theorem globalSymbols_eq : globalSymbols c e d =
    ((foundElsewhere d e).take c.resolveFanoutCap).map qualifiedName := by
  rw [List.map_take]
  rfl

/-- Where no symbol is near, the last tier has all the symbols elsewhere. -/
theorem mem_foundElsewhere (h : ¬Near d e) :
    s ∈ foundElsewhere d e ↔ Tier.global.Matches d e s := by
  unfold foundElsewhere
  rw [mem_foundWhere, Bool.and_eq_true, bne_iff_ne]
  constructor
  · rintro ⟨hs, ⟨hother, hlanguage⟩, hbears⟩
    refine ⟨hs, hbears, hother, fun himported => h ?_, hlanguage⟩
    exact ⟨.directImport, s, nofun, hs, hbears, hother, himported⟩
  · rintro ⟨hs, hbears, hother, -, hlanguage⟩
    exact ⟨hs, ⟨hother, hlanguage⟩, hbears⟩

theorem alternative_of_mem (hplain : ∀ s ∈ d.symbols.rows, Plain s.filePath) {k : String × Nat}
    (hk : k ∈ resolveCandidates c (deriveImportBindings d) e d) : Alternative c d e k := by
  by_cases hnear : Near d e
  · rw [resolveCandidates_of_near hplain hnear] at hk
    obtain ⟨tier, s, htier, hs, rfl⟩ := (mem_nearCandidates hplain).mp hk
    refine ⟨tier, s, ?_, hs, rfl⟩
    cases tier with
    | sameFile | directImport => trivial
    | global => exact absurd rfl htier
  · by_cases hexternal : External d e
    · rw [resolveCandidates_of_external hplain hnear hexternal] at hk
      cases hk
    · rw [resolveCandidates_of_global hplain ⟨hnear, hexternal⟩, globalSymbols_eq] at hk
      simp only [List.map_map, List.mem_map] at hk
      obtain ⟨s, hs, rfl⟩ := hk
      exact ⟨.global, s, ⟨hnear, hexternal⟩,
        (mem_foundElsewhere hnear).mp (List.mem_of_mem_take hs), rfl⟩

theorem mem_of_near (hplain : ∀ s ∈ d.symbols.rows, Plain s.filePath) (htier : tier ≠ .global)
    (hs : tier.Matches d e s) :
    tier.entry c s ∈ resolveCandidates c (deriveImportBindings d) e d := by
  rw [resolveCandidates_of_near hplain ⟨tier, s, htier, hs⟩]
  exact (mem_nearCandidates hplain).mpr ⟨tier, s, htier, hs, rfl⟩

theorem resolveCandidates_nodup (hplain : ∀ s ∈ d.symbols.rows, Plain s.filePath) :
    ((resolveCandidates c (deriveImportBindings d) e d).map Prod.fst).Nodup := by
  have hscored : ∀ (names : List String) (score : Nat), names.Nodup →
      ((names.map fun q => (q, score)).map Prod.fst).Nodup := by
    intro names score h
    simpa [List.map_map, Function.comp_def] using h
  by_cases hnear : Near d e
  · rw [resolveCandidates_of_near hplain hnear]
    exact addUnlessListed_nodup _ (hscored _ _ (symbolsWhere_nodup hplain _ _))
  · by_cases hexternal : External d e
    · rw [resolveCandidates_of_external hplain hnear hexternal]
      exact List.nodup_nil
    · rw [resolveCandidates_of_global hplain ⟨hnear, hexternal⟩]
      exact hscored _ _ ((symbolsWhere_nodup hplain _ _).sublist (List.take_sublist _ _))

theorem resolveCandidates_eq_nil (hplain : ∀ s ∈ d.symbols.rows, Plain s.filePath) :
    resolveCandidates c (deriveImportBindings d) e d = [] ↔
      ¬Near d e ∧ (External d e ∨ ∀ s, ¬Tier.global.Matches d e s) := by
  by_cases hnear : Near d e
  · rw [resolveCandidates_of_near hplain hnear, nearCandidates_eq_nil hplain]
    exact ⟨fun h => absurd hnear h, fun h => h.1⟩
  · by_cases hexternal : External d e
    · rw [resolveCandidates_of_external hplain hnear hexternal]
      exact ⟨fun _ => ⟨hnear, .inl hexternal⟩, fun _ => rfl⟩
    · rw [resolveCandidates_of_global hplain ⟨hnear, hexternal⟩, globalSymbols_eq]
      have hcap : c.resolveFanoutCap ≠ 0 := Nat.ne_of_gt c.resolveFanoutCap_range.1
      rw [List.map_eq_nil_iff, List.map_eq_nil_iff, List.take_eq_nil_iff, or_iff_right hcap,
        List.eq_nil_iff_forall_not_mem]
      simp only [mem_foundElsewhere hnear]
      exact ⟨fun h => ⟨hnear, .inr h⟩, fun h => h.2.resolve_left hexternal⟩

end Candidates

end RemyCC.Index
