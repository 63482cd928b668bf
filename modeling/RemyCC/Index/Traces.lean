import RemyCC.Index.Emission
import Mathlib.Data.List.Flatten

/-!
# Rounds on behalf of someone

A round is gone through on behalf of a visitor, and one visitor may come more
than once. Where different visitors never offer edges of one key, the edges that
a visitor adds are the first of its round.
-/

namespace RemyCC.Index

open Relational

/-- What one round adds. -/
def addedBy (cap : Nat) (round out : List InferredEdge) : List InferredEdge :=
  (emitUpTo cap 0 round out).drop out.length

section Rounds

variable {cap added : Nat} {out round : List InferredEdge} {e f : InferredEdge}

theorem emits_addedBy (cap : Nat) (round out : List InferredEdge) :
    emitUpTo cap 0 round out = out ++ addedBy cap round out ∧
      Emits cap 0 round out (addedBy cap round out) := by
  obtain ⟨emitted, heq, hemits⟩ := emitUpTo_emits cap 0 round out
  have hadded : addedBy cap round out = emitted := by
    rw [addedBy, heq, List.drop_left]
  rw [hadded]
  exact ⟨heq, hemits⟩

theorem addedBy_length (cap : Nat) (round out : List InferredEdge) :
    (addedBy cap round out).length ≤ cap := by
  have hcapped := (emits_addedBy cap round out).2.capped (Nat.zero_le _)
  rwa [Nat.zero_add] at hcapped

/-- A round that meets nothing it has seen adds as many of its edges as the cap allows. -/
theorem emitUpTo_distinct (h : Distinct (out ++ round)) (hadded : added ≤ cap) :
    emitUpTo cap added round out = out ++ round.take (cap - added) := by
  induction round generalizing added out with
  | nil => rw [List.take_nil, List.append_nil, emitUpTo]
  | cons e round ih =>
    unfold emitUpTo
    split
    · next hcap =>
      rw [Nat.sub_eq_zero_of_le hcap, List.take_zero, List.append_nil]
    · next hcap =>
      have hunseen : ¬ out.any e.sameKey = true := by
        intro hseen
        obtain ⟨f, hf, hkey⟩ := List.any_eq_true.mp hseen
        have hdiffers := (List.pairwise_append.mp h).2.2 f hf e List.mem_cons_self
        rw [sameKey_comm, hdiffers] at hkey
        cases hkey
      have hstep : cap - added = (cap - (added + 1)) + 1 := by omega
      unfold emitUnseen
      rw [if_neg hunseen]
      simp only
      rw [ih (by rwa [List.append_assoc, List.singleton_append]) (by omega), hstep,
        List.take_succ_cons, List.append_assoc, List.singleton_append]

theorem addedBy_distinct (h : Distinct (out ++ round)) :
    addedBy cap round out = round.take cap := by
  rw [addedBy, emitUpTo_distinct h (Nat.zero_le _), List.drop_left, Nat.sub_zero]

theorem Distinct.eq_of_sameKey {edges : List InferredEdge} (h : Distinct edges) (he : e ∈ edges)
    (hf : f ∈ edges) (hkey : e.sameKey f = true) : e = f := by
  by_contra hne
  induction h with
  | nil => cases he
  | cons hfirst _ ih =>
    rcases List.mem_cons.mp he with rfl | hin
    · rcases List.mem_cons.mp hf with rfl | hin
      · exact hne rfl
      · rw [hfirst f hin] at hkey
        cases hkey
    · rcases List.mem_cons.mp hf with rfl | hin'
      · rw [sameKey_comm, hfirst e hin] at hkey
        cases hkey
      · exact ih hin hin'

theorem Distinct.nodup {edges : List InferredEdge} (h : Distinct edges) : edges.Nodup :=
  h.imp fun hkey heq => by
    rw [heq] at hkey
    simp [InferredEdge.sameKey] at hkey

end Rounds

section Traces

variable {α : Type} {cap : Nat} {edges : α → List InferredEdge} {visits : List α}
variable {out : List InferredEdge}

/-- What each visit adds, in turn. -/
def traceRounds (cap : Nat) (edges : α → List InferredEdge) :
    List α → List InferredEdge → List (α × List InferredEdge)
  | [], _ => []
  | a :: rest, out =>
    let new := addedBy cap (edges a) out
    (a, new) :: traceRounds cap edges rest (out ++ new)

/-- What has been added in all visits of one visitor. -/
def addedFor [DecidableEq α] (a : α) (trace : List (α × List InferredEdge)) :
    List InferredEdge := (trace.filter fun t => t.1 = a).flatMap Prod.snd

/-- Different visitors never offer edges of one key. -/
def Separate (edges : α → List InferredEdge) (visits : List α) : Prop :=
  ∀ a ∈ visits, ∀ b ∈ visits, a ≠ b → ∀ e ∈ edges a, ∀ f ∈ edges b, e.sameKey f = false

theorem emitRounds_trace (cap : Nat) (edges : α → List InferredEdge) (visits : List α)
    (out : List InferredEdge) : emitRounds cap (visits.map edges) out =
      out ++ (traceRounds cap edges visits out).flatMap Prod.snd := by
  induction visits generalizing out with
  | nil => exact (List.append_nil out).symm
  | cons a visits ih =>
    have hfirst : emitRounds cap ((a :: visits).map edges) out =
        emitRounds cap (visits.map edges) (emitUpTo cap 0 (edges a) out) := rfl
    rw [hfirst, (emits_addedBy cap (edges a) out).1, ih, List.append_assoc]
    rfl

theorem traceRounds_append (before after : List α) (out : List InferredEdge) :
    traceRounds cap edges (before ++ after) out = traceRounds cap edges before out ++
      traceRounds cap edges after
        (out ++ (traceRounds cap edges before out).flatMap Prod.snd) := by
  induction before generalizing out with
  | nil => rw [List.nil_append, traceRounds, List.flatMap_nil, List.append_nil, List.nil_append]
  | cons a before ih =>
    rw [List.cons_append, traceRounds, traceRounds, ih, List.flatMap_cons, List.append_assoc]
    rfl

theorem traceRounds_fst (visits : List α) (out : List InferredEdge) :
    (traceRounds cap edges visits out).map Prod.fst = visits := by
  induction visits generalizing out with
  | nil => rfl
  | cons a visits ih => rw [traceRounds, List.map_cons, ih]

/-- Where in the run a visit has been. -/
theorem traceRounds_split {t : α × List InferredEdge}
    (h : t ∈ traceRounds cap edges visits out) :
    ∃ before after, visits = before ++ t.1 :: after ∧
      t.2 = addedBy cap (edges t.1)
        (out ++ (traceRounds cap edges before out).flatMap Prod.snd) := by
  induction visits generalizing out with
  | nil => cases h
  | cons a visits ih =>
    rcases List.mem_cons.mp h with rfl | h
    · exact ⟨[], visits, rfl, by rw [traceRounds, List.flatMap_nil, List.append_nil]⟩
    · obtain ⟨before, after, rfl, hadded⟩ := ih h
      refine ⟨a :: before, after, rfl, ?_⟩
      rw [hadded, traceRounds, List.flatMap_cons, List.append_assoc]

theorem traceRounds_subset {t : α × List InferredEdge}
    (h : t ∈ traceRounds cap edges visits out) :
    t.1 ∈ visits ∧ t.2 ⊆ edges t.1 ∧ t.2.length ≤ cap := by
  obtain ⟨before, after, rfl, hadded⟩ := traceRounds_split h
  refine ⟨List.mem_append_right _ List.mem_cons_self, ?_, ?_⟩
  · rw [hadded]
    exact (emits_addedBy _ _ _).2.sublist.subset
  · rw [hadded]
    exact addedBy_length _ _ _

theorem mem_flatMap_trace {e : InferredEdge}
    (h : e ∈ (traceRounds cap edges visits out).flatMap Prod.snd) :
    ∃ a ∈ visits, e ∈ edges a := by
  obtain ⟨t, ht, he⟩ := List.mem_flatMap.mp h
  obtain ⟨hvisit, hsubset, -⟩ := traceRounds_subset ht
  exact ⟨t.1, hvisit, hsubset he⟩

theorem traceRounds_distinct (visits : List α) :
    Distinct ((traceRounds cap edges visits []).flatMap Prod.snd) := by
  have hdistinct := @emitRounds_distinct cap (visits.map edges)
  rwa [emitRounds_trace, List.nil_append] at hdistinct

variable {a : α}

/-- The first time a visitor adds the first edges of its round. -/
theorem first_visit (hdistinct : ∀ b ∈ visits, Distinct (edges b)) (hseparate : Separate edges visits)
    {before after : List α} (hvisits : visits = before ++ a :: after) (hfirst : a ∉ before) :
    addedBy cap (edges a) ([] ++ (traceRounds cap edges before []).flatMap Prod.snd) =
      (edges a).take cap := by
  have ha : a ∈ visits := hvisits ▸ List.mem_append_right _ List.mem_cons_self
  refine addedBy_distinct ?_
  rw [List.nil_append]
  refine List.pairwise_append.mpr ⟨traceRounds_distinct before, hdistinct a ha, fun e he f hf => ?_⟩
  obtain ⟨b, hb, he⟩ := mem_flatMap_trace he
  have hmem : b ∈ visits := hvisits ▸ List.mem_append_left _ hb
  exact hseparate b hmem a ha (fun heq => hfirst (heq ▸ hb)) e he f hf

variable [DecidableEq α]

theorem addedFor_append (trace trace' : List (α × List InferredEdge)) :
    addedFor a (trace ++ trace') = addedFor a trace ++ addedFor a trace' := by
  rw [addedFor, List.filter_append, List.flatMap_append]
  rfl

theorem addedFor_cons_self (new : List InferredEdge) (trace : List (α × List InferredEdge)) :
    addedFor a ((a, new) :: trace) = new ++ addedFor a trace := by
  rw [addedFor, List.filter_cons, if_pos (by simp), List.flatMap_cons]
  rfl

theorem mem_addedFor {trace : List (α × List InferredEdge)} {e : InferredEdge} :
    e ∈ addedFor a trace ↔ ∃ t ∈ trace, t.1 = a ∧ e ∈ t.2 := by
  simp only [addedFor, List.mem_flatMap, List.mem_filter, decide_eq_true_eq, and_assoc]

theorem addedFor_sublist (trace : List (α × List InferredEdge)) :
    List.Sublist (addedFor a trace) (trace.flatMap Prod.snd) :=
  List.filter_sublist.flatMap Prod.snd

/-- What is seen of a round is what its visitor has added. -/
theorem seen_addedFor (hdistinct : ∀ b ∈ visits, Distinct (edges b)) (hseparate : Separate edges visits)
    (ha : a ∈ visits) {e : InferredEdge} (he : e ∈ edges a) {before : List α} (hbefore : before ⊆ visits)
    (hseen : ((traceRounds cap edges before []).flatMap Prod.snd).any e.sameKey = true) :
    e ∈ addedFor a (traceRounds cap edges before []) := by
  obtain ⟨f, hf, hkey⟩ := List.any_eq_true.mp hseen
  obtain ⟨t, ht, hf⟩ := List.mem_flatMap.mp hf
  obtain ⟨hvisit, hsubset, -⟩ := traceRounds_subset ht
  have hvisitor : t.1 = a := by
    by_contra hne
    have hdiffers := hseparate a ha t.1 (hbefore hvisit) (Ne.symm hne) e he f (hsubset hf)
    rw [hdiffers] at hkey
    cases hkey
  have hsame : e = f := by
    refine (hdistinct a ha).eq_of_sameKey he ?_ hkey
    rw [← hvisitor]
    exact hsubset hf
  rw [hsame]
  exact mem_addedFor.mpr ⟨t, ht, hvisitor, hf⟩

theorem addedFor_complete (hdistinct : ∀ b ∈ visits, Distinct (edges b))
    (hseparate : Separate edges visits) (ha : a ∈ visits)
    (hlt : (addedFor a (traceRounds cap edges visits [])).length < cap) :
    edges a ⊆ addedFor a (traceRounds cap edges visits []) := by
  intro e he
  obtain ⟨before, after, rfl⟩ := List.append_of_mem ha
  rw [traceRounds_append, traceRounds, addedFor_append, addedFor_cons_self] at hlt
  simp only [List.length_append] at hlt
  have hemits := (emits_addedBy cap (edges a)
    ([] ++ (traceRounds cap edges before []).flatMap Prod.snd)).2
  have hseen := hemits.complete (by omega) e he
  have hfront : before ++ [a] ⊆ before ++ a :: after := by
    intro b hb
    rcases List.mem_append.mp hb with hb | hb
    · exact List.mem_append_left _ hb
    · rw [List.mem_singleton.mp hb]
      exact List.mem_append_right _ List.mem_cons_self
  have hadded : e ∈ addedFor a (traceRounds cap edges (before ++ [a]) []) := by
    refine seen_addedFor hdistinct hseparate ha he hfront ?_
    rw [traceRounds_append, List.flatMap_append, traceRounds, traceRounds, List.flatMap_singleton]
    exact hseen
  have hsplit : before ++ a :: after = before ++ [a] ++ after := by
    rw [List.append_assoc, List.singleton_append]
  rw [hsplit, traceRounds_append, addedFor_append]
  exact List.mem_append_left _ hadded

/-- When the edges that the visits add are right, at most as many for each visitor as the cap
allows: the first edges of each visitor are right, and one that comes again has no more. -/
structure Fair (cap : Nat) (right : α → InferredEdge → Prop) (edges : α → List InferredEdge)
    (visits : List α) : Prop where
  real : ∀ a ∈ visits, ∀ e ∈ (edges a).take cap, right a e
  once : ∀ a ∈ visits, 1 < visits.count a → 0 < cap → (edges a).length ≤ cap

theorem take_of_mem {right : α → InferredEdge → Prop} (hdistinct : ∀ b ∈ visits, Distinct (edges b))
    (hseparate : Separate edges visits) (hfair : Fair cap right edges visits)
    {t : α × List InferredEdge} (ht : t ∈ traceRounds cap edges visits []) :
    t.2 ⊆ (edges t.1).take cap := by
  obtain ⟨hvisit, hsubset, hlength⟩ := traceRounds_subset ht
  obtain ⟨before, after, hvisits, hadded⟩ := traceRounds_split ht
  by_cases hagain : t.1 ∈ before
  · have hcount : 1 < visits.count t.1 := by
      have hbefore := List.count_pos_iff.mpr hagain
      rw [hvisits, List.count_append, List.count_cons_self]
      omega
    rcases Nat.eq_zero_or_pos cap with hzero | hcap
    · rw [hzero] at hlength
      rw [List.length_eq_zero_iff.mp (Nat.le_zero.mp hlength)]
      exact List.nil_subset _
    · rwa [List.take_of_length_le (hfair.once t.1 hvisit hcount hcap)]
  · rw [hadded, first_visit hdistinct hseparate hvisits hagain]
    exact List.Subset.refl _

theorem trace_fair_iff {right : α → InferredEdge → Prop}
    (hdistinct : ∀ b ∈ visits, Distinct (edges b)) (hseparate : Separate edges visits) :
    ((∀ t ∈ traceRounds cap edges visits [], ∀ e ∈ t.2, right t.1 e) ∧
        ∀ a, (addedFor a (traceRounds cap edges visits [])).length ≤ cap) ↔
      Fair cap right edges visits := by
  constructor
  · rintro ⟨hreal, hcapped⟩
    refine ⟨fun a ha e he => ?_, fun a ha hcount hcap => ?_⟩
    · obtain ⟨before, after, hvisits, hfirst⟩ := List.eq_append_cons_of_mem ha
      have htrace : (a, (edges a).take cap) ∈ traceRounds cap edges visits [] := by
        rw [hvisits, traceRounds_append, traceRounds,
          first_visit hdistinct hseparate hvisits hfirst]
        exact List.mem_append_right _ List.mem_cons_self
      exact hreal _ htrace e he
    · by_contra hlong
      -- The first visit uses up the cap, so the second adds nothing and has seen all its round.
      obtain ⟨before, after, hvisits, hfirst⟩ := List.eq_append_cons_of_mem ha
      have hagain : a ∈ after := by
        rw [hvisits, List.count_append, List.count_eq_zero_of_not_mem hfirst,
          List.count_cons_self] at hcount
        exact List.count_pos_iff.mp (by omega)
      obtain ⟨between, rest, rfl⟩ := List.append_of_mem hagain
      have hbound := hcapped a
      have hsubset : edges a ⊆ addedFor a (traceRounds cap edges (before ++ a :: between) []) := by
        intro e he
        have hsplit : visits = (before ++ a :: between) ++ a :: rest := by
          rw [hvisits, List.append_assoc, List.cons_append]
        have hlater := hbound
        rw [hsplit, traceRounds_append, traceRounds, addedFor_append, addedFor_cons_self,
          traceRounds_append, addedFor_append, traceRounds, addedFor_cons_self,
          first_visit hdistinct hseparate hvisits hfirst] at hlater
        simp only [List.length_append, List.length_take] at hlater
        have hemits := (emits_addedBy cap (edges a)
          ([] ++ (traceRounds cap edges (before ++ a :: between) []).flatMap Prod.snd)).2
        have hnone : addedBy cap (edges a)
            ([] ++ (traceRounds cap edges (before ++ a :: between) []).flatMap Prod.snd) = [] := by
          rw [traceRounds_append, traceRounds, first_visit hdistinct hseparate hvisits hfirst]
          exact List.length_eq_zero_iff.mp (by omega)
        have hseen := hemits.complete (by rw [hnone]; simpa using hcap) e he
        rw [hnone, List.append_nil, List.nil_append] at hseen
        refine seen_addedFor hdistinct hseparate ha he ?_ hseen
        rw [hsplit]
        exact List.subset_append_left _ _
      have hnodup := (hdistinct a ha).nodup
      have hle := hnodup.length_le_of_subset hsubset
      have hpart : (addedFor a (traceRounds cap edges (before ++ a :: between) [])).length ≤
          (addedFor a (traceRounds cap edges visits [])).length := by
        have hsplit : visits = (before ++ a :: between) ++ a :: rest := by
          rw [hvisits, List.append_assoc, List.cons_append]
        rw [hsplit, @traceRounds_append _ _ _ (before ++ a :: between), addedFor_append,
          List.length_append]
        omega
      omega
  · intro hfair
    refine ⟨fun t ht e he => ?_, fun a => ?_⟩
    · exact hfair.real t.1 (traceRounds_subset ht).1 e
        (take_of_mem hdistinct hseparate hfair ht he)
    · have hnodup : (addedFor a (traceRounds cap edges visits [])).Nodup :=
        (traceRounds_distinct visits).nodup.sublist (addedFor_sublist _)
      have hsubset : addedFor a (traceRounds cap edges visits []) ⊆ (edges a).take cap := by
        intro e hadded
        obtain ⟨t, ht, rfl, he⟩ := mem_addedFor.mp hadded
        exact take_of_mem hdistinct hseparate hfair ht he
      exact (hnodup.length_le_of_subset hsubset).trans (List.length_take_le _ _)

end Traces

end RemyCC.Index
