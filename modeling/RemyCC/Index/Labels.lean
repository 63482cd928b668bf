import RemyCC.Index.Content
import RemyCC.Index.Tiers

/-!
# What the labels of a resolved edge say

The best candidate stands first in the order of scores and names, so two
symbols of its tier are two candidates with its score, and the edge is labelled
as a guess. Where the cap is one, the last tier has one candidate however many
symbols it has.
-/

namespace RemyCC.Index

open Relational Text

section Order

variable {L : List (String × Nat)} {k l first : String × Nat}

instance : Std.TransCmp candidateOrder :=
  have : Std.TransCmp fun k l : String × Nat => compareOn Prod.snd l k :=
    ⟨fun {_ _ _} hkl hlm => Std.TransCmp.isLE_trans hlm hkl⟩
  inferInstanceAs (Std.TransCmp (compareLex (fun k l : String × Nat => compareOn Prod.snd l k)
    (compareOn Prod.fst)))

theorem score_le_of_isLE (h : (candidateOrder k l).isLE) : l.2 ≤ k.2 := by
  unfold candidateOrder at h
  rcases lt_trichotomy l.2 k.2 with hlt | heq | hgt
  · exact hlt.le
  · exact heq.le
  · rw [compare_gt_iff_gt.mpr hgt] at h
    cases h

theorem fst_eq_of_candidateOrder (h : candidateOrder k l = .eq) : k.1 = l.1 :=
  Std.LawfulEqCmp.eq_of_compare (Ordering.then_eq_eq.mp h).2

theorem candidateOrder_lt (h : (candidateOrder k l).isLE) (hne : k.1 ≠ l.1) :
    candidateOrder k l = .lt := by
  cases hcmp : candidateOrder k l with
  | lt => rfl
  | eq => exact absurd (fst_eq_of_candidateOrder hcmp) hne
  | gt =>
    rw [hcmp] at h
    cases h

/-- A second candidate with the score of the first one. -/
theorem tied_of_mem (hsorted : L.Pairwise fun k l => (candidateOrder k l).isLE)
    (hfirst : L.head? = some first) (hk : k ∈ L) (hne : k ≠ first) (hscore : k.2 = first.2) :
    tied L = true := by
  match L, hfirst with
  | [_], rfl => exact absurd (List.mem_singleton.mp hk) hne
  | first :: second :: rest, rfl =>
    obtain ⟨hhead, htail⟩ := List.pairwise_cons.mp hsorted
    have hsecond : second.2 ≤ first.2 := score_le_of_isLE (hhead second List.mem_cons_self)
    have hk' : k.2 ≤ second.2 := by
      rcases List.mem_cons.mp ((List.mem_cons.mp hk).resolve_left hne) with rfl | hrest
      · exact le_rfl
      · exact score_le_of_isLE ((List.pairwise_cons.mp htail).1 k hrest)
    exact beq_iff_eq.mpr (le_antisymm (hscore ▸ hk') hsecond)

theorem tied_of_scores {n : Nat} (hlength : 2 ≤ L.length) (hscores : ∀ k ∈ L, k.2 = n) :
    tied L = true := by
  match L, hlength with
  | first :: second :: rest, _ =>
    rw [tied, hscores first List.mem_cons_self,
      hscores second (List.mem_cons_of_mem first List.mem_cons_self), beq_self_eq_true]

theorem one_lt_of_tied (h : tied L = true) : 1 < L.length := by
  match L, h with
  | _ :: _ :: _, _ => simp

end Order

section Sorted

variable {c : PostprocessConfig} {d : Database} {e : EdgeRow}

/-- The candidates as they are ranked. -/
def ranked (c : PostprocessConfig) (d : Database) (e : EdgeRow) : List (String × Nat) :=
  orderBy candidateOrder (resolveCandidates c (deriveImportBindings d) e d)

theorem ranked_sorted : (ranked c d e).Pairwise fun k l => (candidateOrder k l).isLE :=
  orderBy_pairwise _

theorem mem_ranked {k : String × Nat} :
    k ∈ ranked c d e ↔ k ∈ resolveCandidates c (deriveImportBindings d) e d := mem_orderBy

theorem ranked_nodup (hplain : ∀ s ∈ d.symbols.rows, Plain s.filePath) :
    ((ranked c d e).map Prod.fst).Nodup :=
  ((orderBy_perm _ _).map Prod.fst).nodup_iff.mpr (resolveCandidates_nodup hplain)

theorem ranked_eq_nil : ranked c d e = [] ↔
    resolveCandidates c (deriveImportBindings d) e d = [] := by
  rw [← List.length_eq_zero_iff, ← List.length_eq_zero_iff, ranked, (orderBy_perm _ _).length_eq]

theorem ranked_lt (hplain : ∀ s ∈ d.symbols.rows, Plain s.filePath) :
    (ranked c d e).Pairwise fun k l => candidateOrder k l = .lt := by
  have hnames : (ranked c d e).Pairwise fun k l => k.1 ≠ l.1 :=
    List.pairwise_map.mp (ranked_nodup hplain)
  exact (ranked_sorted.and hnames).imp fun h => candidateOrder_lt h.1 h.2

theorem ranked_length_of_global (hplain : ∀ s ∈ d.symbols.rows, Plain s.filePath)
    (h : Tier.global.Consulted d e) :
    (ranked c d e).length = ((foundElsewhere d e).take c.resolveFanoutCap).length := by
  rw [ranked, (orderBy_perm _ _).length_eq, resolveCandidates_of_global hplain h,
    globalSymbols_eq, List.length_map, List.length_map]

theorem mem_ranked_of_global (hplain : ∀ s ∈ d.symbols.rows, Plain s.filePath)
    (h : Tier.global.Consulted d e) {k : String × Nat} : k ∈ ranked c d e ↔
      ∃ s ∈ (foundElsewhere d e).take c.resolveFanoutCap, Tier.global.entry c s = k := by
  rw [mem_ranked, resolveCandidates_of_global hplain h, globalSymbols_eq, List.map_map, List.mem_map]
  rfl

/-- Two symbols of the tier of the best candidate make it a tie, unless the cap hides one. -/
theorem tied_of_matches (hplain : ∀ s ∈ d.symbols.rows, Plain s.filePath) {tier : Tier}
    {s s' : SymbolRow} (hconsulted : tier.Consulted d e)
    (hfirst : (ranked c d e).head? = some (tier.entry c s)) (hs : tier.Matches d e s)
    (hs' : tier.Matches d e s') (hne : s' ≠ s) (hcap : tier = .global → c.resolveFanoutCap ≠ 1) :
    tied (ranked c d e) = true := by
  by_cases htier : tier = .global
  · subst htier
    refine tied_of_scores (n := c.resolveScoreGlobal) ?_ fun k hk => ?_
    · have hmem : ∀ {s}, Tier.global.Matches d e s → s ∈ foundElsewhere d e :=
        (mem_foundElsewhere hconsulted.1).mpr
      have htwo : 2 ≤ (foundElsewhere d e).length := by
        by_contra hfew
        obtain ⟨x, hx⟩ := List.length_eq_one_iff.mp (le_antisymm (Nat.lt_succ_iff.mp (not_le.mp hfew))
          (List.length_pos_of_mem (hmem hs)))
        have heq := List.mem_singleton.mp (hx ▸ hmem hs)
        have heq' := List.mem_singleton.mp (hx ▸ hmem hs')
        exact hne (heq'.trans heq.symm)
      rw [ranked_length_of_global hplain hconsulted, List.length_take]
      have hrange := c.resolveFanoutCap_range.1
      have hcap := hcap rfl
      omega
    · obtain ⟨_, _, rfl⟩ := (mem_ranked_of_global hplain hconsulted).mp hk
      rfl
  · refine tied_of_mem ranked_sorted hfirst (mem_ranked.mpr (mem_of_near hplain htier hs')) ?_ rfl
    intro heq
    exact hne (symbol_eq_of_qualified hplain hs'.1 hs.1 (congrArg Prod.fst heq))

end Sorted

section Listing

variable {c : PostprocessConfig} {d : Database} {e : EdgeRow}

def CandidateRow.entry (k : CandidateRow) : String × Nat := (k.candidateQualified, k.score)

/-- The rows list alternatives in the order of scores and names, all of them up to the cap:
near ones are left out from the end of this order, others from the end of the order of
files and names. -/
structure Listing (c : PostprocessConfig) (d : Database) (e : EdgeRow)
    (rows : List CandidateRow) : Prop where
  ordered : rows.Pairwise fun k l => candidateOrder k.entry l.entry = .lt
  alternatives : ∀ k ∈ rows, k.edgeId = e.id ∧ Alternative c d e k.entry
  capped : rows.length ≤ c.resolveFanoutCap
  near : ∀ (tier : Tier) (s : SymbolRow), tier ≠ .global → tier.Matches d e s →
    (∀ k ∈ rows, k.entry ≠ tier.entry c s) → rows.length = c.resolveFanoutCap ∧
      ∀ k ∈ rows, candidateOrder k.entry (tier.entry c s) = .lt
  elsewhere : Tier.global.Consulted d e → ∀ s, Tier.global.Matches d e s →
    (∀ k ∈ rows, k.entry ≠ Tier.global.entry c s) → rows.length = c.resolveFanoutCap ∧
      ∀ k ∈ rows, ∃ s', Tier.global.Matches d e s' ∧ k.entry = Tier.global.entry c s' ∧
        symbolOrder s' s = .lt

theorem addRows_eq_map {id : Nat} {ks : List (String × Nat)} {rows : List CandidateRow}
    (h : (rows.map CandidateRow.candidateQualified ++ ks.map Prod.fst).Nodup) :
    addRows id rows ks = rows ++ ks.map fun k => ⟨id, k.1, k.2⟩ := by
  induction ks generalizing rows with
  | nil => simp [addRows]
  | cons k ks ih =>
    have hnew : rows.any (fun s => s.candidateQualified == k.1) = false := by
      rw [List.any_eq_false]
      intro s hs hname
      refine (List.nodup_append.mp h).2.2 _ (List.mem_map.mpr ⟨s, hs, rfl⟩) k.1 ?_
        (beq_iff_eq.mp hname)
      exact List.mem_cons_self
    have hstep : addRows id rows (k :: ks) = addRows id (rows ++ [⟨id, k.1, k.2⟩]) ks := by
      rw [addRows, List.foldl_cons, addRow, hnew]
      rfl
    rw [hstep, ih (by simpa using h)]
    simp

theorem mem_drop_of_not_mem_take {α : Type} {n : Nat} {x : α} {L : List α} (hx : x ∈ L)
    (hnot : x ∉ L.take n) : x ∈ L.drop n := by
  rw [← List.take_append_drop n L] at hx
  exact (List.mem_append.mp hx).resolve_left hnot

theorem length_take_of_mem_drop {α : Type} {n : Nat} {x : α} {L : List α} (hx : x ∈ L.drop n) :
    (L.take n).length = n := by
  have hpos := List.length_pos_of_mem hx
  rw [List.length_drop] at hpos
  rw [List.length_take]
  omega

theorem pairwise_take_drop {α : Type} {R : α → α → Prop} {L : List α} (h : L.Pairwise R) (n : Nat) :
    ∀ x ∈ L.take n, ∀ y ∈ L.drop n, R x y := by
  rw [← List.take_append_drop n L] at h
  exact (List.pairwise_append.mp h).2.2

theorem foundElsewhere_lt : (foundElsewhere d e).Pairwise fun s t => symbolOrder s t = .lt := by
  have hnodup : (foundElsewhere d e).Pairwise fun s t => s.key ≠ t.key := by
    refine List.pairwise_map.mp ?_
    refine ((orderBy_perm symbolOrder _).map SymbolRow.key).nodup_iff.mpr ?_
    exact d.symbols.distinct.sublist (List.Sublist.map _ List.filter_sublist)
  refine ((@orderBy_pairwise _ symbolOrder _ _).and hnodup).imp fun {s t} h => ?_
  cases hcmp : symbolOrder s t with
  | lt => rfl
  | eq => exact absurd (SameContent.eq_of_symbolOrder hcmp) h.2
  | gt =>
    have hle := h.1
    rw [hcmp] at hle
    cases hle

theorem listing_ranked (hplain : ∀ s ∈ d.symbols.rows, Plain s.filePath) :
    Listing c d e (addRows e.id [] ((ranked c d e).take c.resolveFanoutCap)) := by
  have hrows : addRows e.id [] ((ranked c d e).take c.resolveFanoutCap) =
      ((ranked c d e).take c.resolveFanoutCap).map fun k => ⟨e.id, k.1, k.2⟩ := by
    refine (addRows_eq_map ?_).trans (List.nil_append _)
    exact (ranked_nodup hplain).sublist (List.Sublist.map _ (List.take_sublist _ _))
  rw [hrows]
  have hmem : ∀ {k : CandidateRow}, k ∈ ((ranked c d e).take c.resolveFanoutCap).map
      (fun k => ⟨e.id, k.1, k.2⟩) →
        k.edgeId = e.id ∧ k.entry ∈ (ranked c d e).take c.resolveFanoutCap := by
    intro k hk
    obtain ⟨l, hl, rfl⟩ := List.mem_map.mp hk
    exact ⟨rfl, hl⟩
  exact
    { ordered := by
        refine List.pairwise_map.mpr ?_
        exact (ranked_lt hplain).sublist (List.take_sublist _ _)
      alternatives := by
        intro k hk
        refine ⟨(hmem hk).1, alternative_of_mem hplain ?_⟩
        exact mem_ranked.mp (List.mem_of_mem_take (hmem hk).2)
      capped := by
        rw [List.length_map]
        exact List.length_take_le _ _
      near := by
        intro tier s htier hs hleft
        have hdrop : tier.entry c s ∈ (ranked c d e).drop c.resolveFanoutCap := by
          refine mem_drop_of_not_mem_take (mem_ranked.mpr (mem_of_near hplain htier hs)) ?_
          exact fun htake => hleft _ (List.mem_map.mpr ⟨_, htake, rfl⟩) rfl
        refine ⟨?_, fun k hk => ?_⟩
        · rw [List.length_map]
          exact length_take_of_mem_drop hdrop
        · exact pairwise_take_drop (ranked_lt hplain) _ _ (hmem hk).2 _ hdrop
      elsewhere := by
        intro hconsulted s hs hleft
        have hlength := ranked_length_of_global (c := c) hplain hconsulted
        have hall : (ranked c d e).take c.resolveFanoutCap = ranked c d e := by
          refine List.take_of_length_le ?_
          rw [hlength]
          exact List.length_take_le _ _
        rw [hall] at hleft hmem ⊢
        have hdrop : s ∈ (foundElsewhere d e).drop c.resolveFanoutCap := by
          refine mem_drop_of_not_mem_take ((mem_foundElsewhere hconsulted.1).mpr hs) ?_
          intro htake
          have hranked := (mem_ranked_of_global (c := c) hplain hconsulted).mpr ⟨s, htake, rfl⟩
          exact hleft _ (List.mem_map.mpr ⟨_, hranked, rfl⟩) rfl
        refine ⟨?_, fun k hk => ?_⟩
        · rw [List.length_map, hlength]
          exact length_take_of_mem_drop hdrop
        · obtain ⟨s', htake, hentry⟩ :=
            (mem_ranked_of_global hplain hconsulted).mp (hmem hk).2
          refine ⟨s', (mem_foundElsewhere hconsulted.1).mp (List.mem_of_mem_take htake),
            hentry.symm, ?_⟩
          exact pairwise_take_drop foundElsewhere_lt _ _ htake _ hdrop }

end Listing

section Honest

variable {c : PostprocessConfig} {d : Database} {e : EdgeRow}

/-- What an edge and its candidate rows say is so. -/
structure Honest (c : PostprocessConfig) (d : Database) (e : EdgeRow)
    (rows : List CandidateRow) : Prop where
  sound : ∀ q ∈ e.calleeQualified, ∃ s ∈ d.symbols.rows, s.bears e.callee ∧
    q = qualifiedName s ∧ e.calleeFile = some s.filePath
  definite : e.provenance = some .definite → ∃ (tier : Tier) (s : SymbolRow),
    tier.Matches d e s ∧ e.calleeQualified = some (qualifiedName s) ∧
    (tier = .global → c.resolveScoreDirectImport ≤ c.resolveScoreGlobal) ∧
    ((tier = .global → c.resolveFanoutCap ≠ 1) → ∀ s', tier.Matches d e s' → s' = s)
  ambiguous : ∀ (tier : Tier) (s s' : SymbolRow), tier.Matches d e s →
    e.calleeQualified = some (qualifiedName s) → tier.Matches d e s' → s' ≠ s →
    (tier = .global → c.resolveFanoutCap ≠ 1) →
      e.provenance = some .speculative ∧ Listing c d e rows
  unresolved : e.calleeQualified = none ↔
    ¬Near d e ∧ (External d e ∨ ∀ s, ¬Tier.global.Matches d e s)

theorem resolveEdge_eq_none :
    resolveEdge c (deriveImportBindings d) d e = none ↔ ranked c d e = [] := by
  unfold resolveEdge
  rw [Option.map_eq_none_iff, List.head?_eq_none_iff]
  rfl

/-- A resolution is what the best candidate and the ties of the ranking make of it. -/
theorem resolveEdge_eq_some {r : Resolution}
    (h : resolveEdge c (deriveImportBindings d) d e = some r) :
    ∃ first, (ranked c d e).head? = some first ∧ r =
      { best := first.1
        bestFile := beforeFirst "::" first.1
        provenance := chooseProvenance c e (ranked c d e) first.2
        candidates :=
          if 1 < (ranked c d e).length then (ranked c d e).take c.resolveFanoutCap else [] } := by
  obtain ⟨first, hfirst, rfl⟩ := Option.map_eq_some_iff.mp h
  exact ⟨first, hfirst, rfl⟩

theorem chooseProvenance_definite {L : List (String × Nat)} {score : Nat}
    (h : chooseProvenance c e L score = .definite) :
    tied L = false ∧ c.resolveScoreDirectImport ≤ score := by
  unfold chooseProvenance at h
  split at h
  · cases h
  · rename_i hclear
    split at h
    · rename_i hscore
      exact ⟨by simp_all, hscore⟩
    · cases h

theorem chooseProvenance_tied {L : List (String × Nat)} (score : Nat) (h : tied L = true) :
    chooseProvenance c e L score = .speculative := by
  unfold chooseProvenance
  rw [h, Bool.true_or, if_pos rfl]

/-- The columns of a settled edge. -/
theorem settled_columns {r : Resolution} (hsettled : settled c d e = e)
    (hr : resolveEdge c (deriveImportBindings d) d e = some r) :
    e.calleeQualified = some r.best ∧ e.calleeFile = r.bestFile ∧
      e.provenance = some r.provenance := by
  rw [settled, hr] at hsettled
  exact ⟨(congrArg EdgeRow.calleeQualified hsettled).symm,
    (congrArg EdgeRow.calleeFile hsettled).symm, (congrArg EdgeRow.provenance hsettled).symm⟩

theorem unsettled_columns (hsettled : settled c d e = e)
    (hr : resolveEdge c (deriveImportBindings d) d e = none) :
    e.calleeQualified = none ∧ e.provenance = none := by
  rw [settled, hr] at hsettled
  exact ⟨(congrArg EdgeRow.calleeQualified hsettled).symm,
    (congrArg EdgeRow.provenance hsettled).symm⟩

theorem honest_of_settled (hplain : ∀ s ∈ d.symbols.rows, Plain s.filePath)
    (hsettled : settled c d e = e) : Honest c d e (settledCandidates c d e) := by
  have hnil := (resolveCandidates_eq_nil (c := c) (e := e) hplain).symm.trans ranked_eq_nil.symm
  cases hresolve : resolveEdge c (deriveImportBindings d) d e with
  | none =>
    obtain ⟨hqualified, hprovenance⟩ := unsettled_columns hsettled hresolve
    refine ⟨?_, ?_, ?_, fun _ => hnil.mpr (resolveEdge_eq_none.mp hresolve), fun _ => hqualified⟩
    · rw [hqualified]
      exact nofun
    · rw [hprovenance]
      exact nofun
    · intro tier s s' _ hchosen
      rw [hqualified] at hchosen
      cases hchosen
  | some r =>
    obtain ⟨hqualified, hfile, hprovenance⟩ := settled_columns hsettled hresolve
    obtain ⟨first, hfirst, hr⟩ := resolveEdge_eq_some hresolve
    have hmem : first ∈ ranked c d e := List.mem_of_mem_head? hfirst
    obtain ⟨tier, s, hconsulted, hs, hentry⟩ := alternative_of_mem hplain (mem_ranked.mp hmem)
    rw [hentry] at hfirst hr
    rw [hr] at hqualified hfile hprovenance
    have hfile : e.calleeFile = some s.filePath :=
      hfile.trans (beforeFirst_plain (hplain s hs.1) s.name)
    refine ⟨?_, ?_, ?_, ?_, ?_⟩
    · intro q hq
      rw [hqualified] at hq
      exact ⟨s, hs.1, hs.2.1, (Option.some.inj hq).symm, hfile⟩
    · intro hdefinite
      rw [hprovenance] at hdefinite
      obtain ⟨huntied, hscore⟩ := chooseProvenance_definite (Option.some.inj hdefinite)
      refine ⟨tier, s, hs, hqualified, ?_, ?_⟩
      · rintro rfl
        exact hscore
      · intro hcap s' hs'
        by_contra hne
        have htied := tied_of_matches hplain hconsulted hfirst hs hs' hne hcap
        rw [huntied] at htied
        cases htied
    · intro tier' t t' ht hchosen ht' hne hcap
      have hsame : qualifiedName s = qualifiedName t :=
        Option.some.inj (hqualified.symm.trans hchosen)
      obtain rfl := symbol_eq_of_qualified hplain hs.1 ht.1 hsame
      obtain rfl := hs.tier_eq ht
      have htied := tied_of_matches hplain hconsulted hfirst hs ht' hne hcap
      refine ⟨by rw [hprovenance, chooseProvenance_tied _ htied], ?_⟩
      unfold settledCandidates
      rw [hresolve, hr]
      simp only [settleRows, if_pos (one_lt_of_tied htied)]
      exact listing_ranked hplain
    · intro hnone
      rw [hqualified] at hnone
      cases hnone
    · intro hnone
      rw [hnil.mp hnone] at hmem
      cases hmem

end Honest

section Run

variable {c : PostprocessConfig} {d : Database}

theorem run_inputs (c : PostprocessConfig) (d : Database) : SameInputs d (run c d) :=
  ((resolveFull_same d).inputs.trans (resynthesize_same c _).inputs).trans (run_views c d).inputs

theorem SameInputs.plain {d' : Database} (h : SameInputs d d')
    (hplain : ∀ s ∈ d.symbols.rows, Plain s.filePath) : ∀ s ∈ d'.symbols.rows, Plain s.filePath := by
  intro s hs
  obtain ⟨t, ht, hkey⟩ := List.mem_map.mp (h.symbols.mem_iff.mp (List.mem_map_of_mem hs))
  have hpath : t.filePath = s.filePath := congrArg Prod.fst hkey
  exact hpath ▸ hplain t ht

/-- After `run` every direct edge is labelled as the tiers have it. -/
theorem run_honest (hplain : ∀ s ∈ d.symbols.rows, Plain s.filePath) :
    ∀ e ∈ (run c d).edges.rows, e.direct = true →
      Honest c (run c d) e (candidatesOf e.id (run c d)) := by
  intro e he hdirect
  obtain ⟨hsettled, hcandidates⟩ := resolved_run c d e he hdirect
  rw [hcandidates]
  exact honest_of_settled ((run_inputs c d).plain hplain) hsettled

end Run

section Example

theorem caller_named : "a.py" ≠ "" := by decide

theorem near_named : "b.py" ≠ "" := by decide

theorem far_named : "c.py" ≠ "" := by decide

theorem colon_named : "a:" ≠ "" := by decide

theorem both_named : ["main", "work"].Nodup := by decide

/-- A file that calls `work` and one or two others that define it. -/
def elsewhere (others : List FileFacts) : Database :=
  (applyOps plainHashes (.write (pythonFacts "a.py" "1" ["main"] [("main", "work")] caller_named
    (List.nodup_singleton _)) :: others.map FileOp.write) .empty).1

def definedIn (path : String) (hpath : path ≠ "") : FileFacts :=
  pythonFacts path "1" ["work"] [] hpath (List.nodup_singleton _)

/-- A file that defines the name it has imported from a module outside the index. -/
def shadowing : Database :=
  (applyOps plainHashes [.write { pythonFacts "a.py" "1" ["main", "work"] [("main", "work")]
    caller_named both_named with
      importBindingsJson := "[\x7b\"module\":\"os\",\"names\":[\"work\"]\x7d]" }] .empty).1

def colonPath : Database :=
  (applyOps plainHashes [.write (pythonFacts "a:" "1" ["main", "work"] [("main", "work")]
    colon_named both_named)] .empty).1

theorem one_score : 1 ≤ 100 := by decide

theorem one_cap : 1 ≤ 1 ∧ 1 ≤ 100 := by decide

/-- A last tier that scores no less than an imported file. -/
def levelScores : PostprocessConfig :=
  { PostprocessConfig.default with
    resolveScoreGlobal := 1
    resolveScoreGlobal_range := one_score }

def capOne : PostprocessConfig :=
  { PostprocessConfig.default with
    resolveFanoutCap := 1
    resolveFanoutCap_range := one_cap }

theorem run_honest_two : ∃ e, e ∈ (run .default (elsewhere [definedIn "b.py" near_named,
    definedIn "c.py" far_named])).edges.rows ∧ e.direct = true ∧
      Honest .default (run .default (elsewhere [definedIn "b.py" near_named,
        definedIn "c.py" far_named])) e (candidatesOf e.id (run .default
          (elsewhere [definedIn "b.py" near_named, definedIn "c.py" far_named]))) := by
  obtain ⟨hplain, hdirect⟩ : (∀ s ∈ (elsewhere [definedIn "b.py" near_named,
      definedIn "c.py" far_named]).symbols.rows, Plain s.filePath) ∧
      (run .default (elsewhere [definedIn "b.py" near_named,
        definedIn "c.py" far_named])).edges.rows.any EdgeRow.direct = true := by decide +kernel
  obtain ⟨e, he, hdirect⟩ := List.any_eq_true.mp hdirect
  exact ⟨e, he, hdirect, run_honest hplain e he hdirect⟩

/-- An external name is resolved where a near symbol shadows it; a definite callee need not
be near; under a cap of one the choice between two symbols does not show; and a path that
ends in a colon is cut off. -/
theorem labels_depend :
    (∃ e ∈ (run .default shadowing).edges.rows,
      e.callee ∈ (deriveImportBindings (run .default shadowing)).externalsOf e.sourceFile ∧
        e.calleeQualified = some "a.py::work") ∧
    (∃ e ∈ (run levelScores (elsewhere [definedIn "b.py" near_named])).edges.rows,
      e.provenance = some .definite ∧ e.calleeFile = some "b.py" ∧ e.sourceFile = "a.py" ∧
        ¬Imported (run levelScores (elsewhere [definedIn "b.py" near_named])) e "b.py") ∧
    (∃ e ∈ (run capOne (elsewhere [definedIn "b.py" near_named,
        definedIn "c.py" far_named])).edges.rows,
      (∀ path ∈ ["b.py", "c.py"], ∃ s ∈ (run capOne (elsewhere [definedIn "b.py" near_named,
        definedIn "c.py" far_named])).symbols.rows, s.filePath = path ∧
          Tier.global.Matches (run capOne (elsewhere [definedIn "b.py" near_named,
            definedIn "c.py" far_named])) e s) ∧
        e.calleeQualified = some "b.py::work" ∧ e.provenance = some .probable ∧
        candidatesOf e.id (run capOne (elsewhere [definedIn "b.py" near_named,
          definedIn "c.py" far_named])) = []) ∧
    (∃ e ∈ (run .default colonPath).edges.rows, e.calleeFile = some "a" ∧
      ∀ s ∈ (run .default colonPath).symbols.rows, contains s.filePath "::" = false ∧
        s.filePath ≠ "a") := by
  refine ⟨?_, ?_, ?_, ?_⟩ <;> decide +kernel

end Example

end RemyCC.Index
