import Mathlib.Logic.Basic

/-!
# Outcomes of computations that may fail

A single judgement bounds both ends of an `Except` computation: what a
returned value satisfies, and what an error satisfies. Chaining steps keeps
one error bound, so an error that no step can raise is excluded once.
-/

namespace RemyCC.Relational

universe u v w

variable {ε : Type u} {α : Type v} {β : Type v}

def Yields (x : Except ε α) (ok : α → Prop) (err : ε → Prop) : Prop :=
  match x with
  | .ok a => ok a
  | .error e => err e

@[simp]
theorem yields_ok {a : α} {ok : α → Prop} {err : ε → Prop} :
    Yields (.ok a) ok err ↔ ok a := Iff.rfl

@[simp]
theorem yields_error {e : ε} {ok : α → Prop} {err : ε → Prop} :
    Yields (.error e) ok err ↔ err e := Iff.rfl

@[simp]
theorem yields_pure {a : α} {ok : α → Prop} {err : ε → Prop} :
    Yields (pure a : Except ε α) ok err ↔ ok a := Iff.rfl

@[simp]
theorem yields_throw {e : ε} {ok : α → Prop} {err : ε → Prop} :
    Yields (throw e : Except ε α) ok err ↔ err e := Iff.rfl

/-- A chain that returns went through its first step. -/
theorem exists_of_bind_ok {x : Except ε α} {next : α → Except ε β} {b : β}
    (h : (x >>= next) = .ok b) : ∃ a, x = .ok a ∧ next a = .ok b := by
  cases x with
  | error e => cases h
  | ok a => exact ⟨a, rfl, h⟩

/-- A chain that returns passed the checks on its way. -/
theorem of_guard_ok {β : Type} {c : Prop} [Decidable c] {e : ε} {next : Unit → Except ε β} {b : β}
    (h : (if c then (throw e : Except ε Unit) >>= next else next ()) = .ok b) : ¬ c ∧ next () = .ok b := by
  by_cases hc : c
  · rw [if_pos hc] at h
    cases h
  · rw [if_neg hc] at h
    exact ⟨hc, h⟩

theorem Yields.of_eq_ok {x : Except ε α} {ok : α → Prop} {err : ε → Prop} {a : α}
    (h : Yields x ok err) (hx : x = .ok a) : ok a := by
  rw [hx] at h
  exact h

theorem Yields.of_eq_error {x : Except ε α} {ok : α → Prop} {err : ε → Prop} {e : ε}
    (h : Yields x ok err) (hx : x = .error e) : err e := by
  rw [hx] at h
  exact h

theorem Yields.mono {x : Except ε α} {ok ok' : α → Prop} {err err' : ε → Prop}
    (h : Yields x ok err) (hok : ∀ a, x = .ok a → ok a → ok' a) (herr : ∀ e, err e → err' e) :
    Yields x ok' err' := by
  cases x with
  | ok a => exact hok a rfl h
  | error e => exact herr e h

theorem Yields.bind {x : Except ε α} {f : α → Except ε β} {mid : α → Prop}
    {ok : β → Prop} {err : ε → Prop} (hx : Yields x mid err)
    (hf : ∀ a, x = .ok a → mid a → Yields (f a) ok err) : Yields (x >>= f) ok err := by
  cases x with
  | ok a => exact hf a rfl hx
  | error e => exact hx

/-- The same rule with what holds in between written first. -/
theorem Yields.through (mid : α → Prop) {x : Except ε α} {f : α → Except ε β}
    {ok : β → Prop} {err : ε → Prop} (hx : Yields x mid err)
    (hf : ∀ a, x = .ok a → mid a → Yields (f a) ok err) : Yields (x >>= f) ok err :=
  hx.bind hf

theorem Yields.ite {c : Prop} [Decidable c] {x y : Except ε α} {ok : α → Prop} {err : ε → Prop}
    (hx : c → Yields x ok err) (hy : ¬ c → Yields y ok err) :
    Yields (if c then x else y) ok err := by
  split
  · exact hx ‹_›
  · exact hy ‹_›

theorem exists_of_map_eq_ok {x : Except ε α} {f : α → β} {b : β} (h : x.map f = .ok b) :
    ∃ a, x = .ok a ∧ f a = b := by
  cases x with
  | ok a => exact ⟨a, rfl, Except.ok.inj h⟩
  | error e => cases h

/-- An error of one type carried into a wider one. -/
def liftError {ε' : Type w} (wrap : ε → ε') : Except ε α → Except ε' α
  | .ok a => .ok a
  | .error e => .error (wrap e)

theorem Yields.liftError {ε' : Type w} {wrap : ε → ε'} {x : Except ε α} {ok : α → Prop}
    {err : ε' → Prop} (h : Yields x ok (fun e => err (wrap e))) :
    Yields (liftError wrap x) ok err := by
  cases x with
  | ok a => exact h
  | error e => exact h

end RemyCC.Relational
