import Mathlib.Data.List.Basic

/-!
# Runs of a deterministic system under a list of events

A run is the left fold of a step function. A condition on steps is asked of
each event in the very state it is applied to, and an invariant that every
such step keeps holds after every prefix.
-/

namespace RemyCC.Relational

universe u v

variable {σ : Type u} {ε : Type v}

def run (step : σ → ε → σ) (s : σ) (events : List ε) : σ := events.foldl step s

@[simp]
theorem run_nil (step : σ → ε → σ) (s : σ) : run step s [] = s := rfl

@[simp]
theorem run_cons (step : σ → ε → σ) (s : σ) (e : ε) (events : List ε) :
    run step s (e :: events) = run step (step s e) events := rfl

theorem run_append (step : σ → ε → σ) (s : σ) (first second : List ε) :
    run step s (first ++ second) = run step (run step s first) second :=
  List.foldl_append

theorem run_concat (step : σ → ε → σ) (s : σ) (events : List ε) (e : ε) :
    run step s (events ++ [e]) = step (run step s events) e := by
  rw [run_append]
  rfl

/-- Every event of the list meets the condition in the state it is applied to. -/
def Meets (step : σ → ε → σ) (cond : σ → ε → Prop) : σ → List ε → Prop
  | _, [] => True
  | s, e :: events => cond s e ∧ Meets step cond (step s e) events

instance {step : σ → ε → σ} {cond : σ → ε → Prop} [∀ s e, Decidable (cond s e)] :
    ∀ (s : σ) (events : List ε), Decidable (Meets step cond s events)
  | _, [] => isTrue trivial
  | s, e :: events =>
    haveI : Decidable (Meets step cond (step s e) events) := instDecidableMeets _ _
    inferInstanceAs (Decidable (_ ∧ _))

@[simp]
theorem meets_nil {step : σ → ε → σ} {cond : σ → ε → Prop} {s : σ} : Meets step cond s [] := trivial

@[simp]
theorem meets_cons {step : σ → ε → σ} {cond : σ → ε → Prop} {s : σ} {e : ε} {events : List ε} :
    Meets step cond s (e :: events) ↔ cond s e ∧ Meets step cond (step s e) events := Iff.rfl

theorem meets_append {step : σ → ε → σ} {cond : σ → ε → Prop} {s : σ} {first second : List ε} :
    Meets step cond s (first ++ second) ↔
      Meets step cond s first ∧ Meets step cond (run step s first) second := by
  induction first generalizing s with
  | nil => simp
  | cons e first ih => simp [ih, and_assoc]

theorem meets_iff_split {step : σ → ε → σ} {cond : σ → ε → Prop} {s : σ} {events : List ε} :
    Meets step cond s events ↔
      ∀ before e after, events = before ++ e :: after → cond (run step s before) e := by
  constructor
  · rintro h before e after rfl
    exact (meets_cons.mp (meets_append.mp h).2).1
  · intro h
    induction events generalizing s with
    | nil => trivial
    | cons e events ih =>
      refine ⟨h [] e events rfl, ih ?_⟩
      rintro before e' after rfl
      exact h (e :: before) e' after rfl

/-- The run rule: what every admitted step keeps holds at the end of the run. -/
theorem run_invariant {step : σ → ε → σ} {cond : σ → ε → Prop} {inv : σ → Prop}
    (keep : ∀ s e, inv s → cond s e → inv (step s e)) {s : σ} (hs : inv s) {events : List ε}
    (h : Meets step cond s events) : inv (run step s events) := by
  induction events generalizing s with
  | nil => exact hs
  | cons e events ih => exact ih (keep s e hs h.1) h.2

/-- The same rule for what is to hold of the steps themselves. -/
theorem meets_of_invariant {step : σ → ε → σ} {cond goal : σ → ε → Prop} {inv : σ → Prop}
    (keep : ∀ s e, inv s → cond s e → goal s e ∧ inv (step s e)) {s : σ} (hs : inv s)
    {events : List ε} (h : Meets step cond s events) : Meets step goal s events := by
  induction events generalizing s with
  | nil => trivial
  | cons e events ih =>
    obtain ⟨hgoal, hinv⟩ := keep s e hs h.1
    exact ⟨hgoal, ih hinv h.2⟩

theorem run_invariant_of_forall {step : σ → ε → σ} {inv : σ → Prop}
    (keep : ∀ s e, inv s → inv (step s e)) {s : σ} (hs : inv s) (events : List ε) :
    inv (run step s events) := by
  induction events generalizing s with
  | nil => exact hs
  | cons e events ih => exact ih (keep s e hs)

end RemyCC.Relational
