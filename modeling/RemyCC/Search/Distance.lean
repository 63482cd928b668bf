import Mathlib.Logic.Relation
import Mathlib.Data.Set.Insert
import Mathlib.Data.List.Chain
import Mathlib.Data.List.Nodup

/-!
# Distances in a relation

`Steps R n x y` says that `n` steps of `R` lead from `x` to `y`. A node is at
distance `n` from a set if `n` steps lead to it from there and no fewer do.
-/

namespace RemyCC.Search

universe u

variable {α : Type u} {R : α → α → Prop}

inductive Steps (R : α → α → Prop) : Nat → α → α → Prop where
  | refl (x : α) : Steps R 0 x x
  | head {n : Nat} {x y z : α} (hstep : R x y) (hrest : Steps R n y z) : Steps R (n + 1) x z

namespace Steps

theorem single {x y : α} (h : R x y) : Steps R 1 x y := .head h (.refl y)

theorem zero_iff {x y : α} : Steps R 0 x y ↔ x = y := by
  constructor
  · intro h
    cases h
    rfl
  · rintro rfl
    exact .refl x

theorem succ_iff {n : Nat} {x z : α} : Steps R (n + 1) x z ↔ ∃ y, R x y ∧ Steps R n y z := by
  constructor
  · intro h
    cases h with
    | head hstep hrest => exact ⟨_, hstep, hrest⟩
  · rintro ⟨y, hstep, hrest⟩
    exact .head hstep hrest

theorem append {m n : Nat} {x y z : α} (h : Steps R m x y) (h' : Steps R n y z) :
    Steps R (m + n) x z := by
  induction h with
  | refl x => rwa [Nat.zero_add]
  | head hstep _ ih =>
    rw [Nat.add_right_comm]
    exact .head hstep (ih h')

theorem tail {n : Nat} {x y z : α} (h : Steps R n x y) (hstep : R y z) : Steps R (n + 1) x z :=
  h.append (.single hstep)

/-- A walk of `m + n` steps is at some node after `m` of them. -/
theorem split {m n : Nat} {x z : α} (h : Steps R (m + n) x z) :
    ∃ y, Steps R m x y ∧ Steps R n y z := by
  induction m generalizing x with
  | zero => exact ⟨x, .refl x, by rwa [Nat.zero_add] at h⟩
  | succ m ih =>
    rw [Nat.add_right_comm] at h
    obtain ⟨w, hstep, hrest⟩ := succ_iff.mp h
    obtain ⟨y, hleft, hright⟩ := ih hrest
    exact ⟨y, .head hstep hleft, hright⟩

theorem succ_iff_tail {n : Nat} {x z : α} : Steps R (n + 1) x z ↔ ∃ y, Steps R n x y ∧ R y z := by
  constructor
  · intro h
    obtain ⟨y, hleft, hright⟩ := h.split
    obtain ⟨w, hstep, hrest⟩ := succ_iff.mp hright
    exact ⟨y, hleft, zero_iff.mp hrest ▸ hstep⟩
  · rintro ⟨y, hleft, hstep⟩
    exact hleft.tail hstep

theorem swap {n : Nat} {x y : α} (h : Steps R n x y) : Steps (fun a b => R b a) n y x := by
  induction h with
  | refl x => exact .refl x
  | head hstep _ ih => exact ih.tail hstep

theorem swap_iff {n : Nat} {x y : α} : Steps (fun a b => R b a) n y x ↔ Steps R n x y :=
  ⟨fun h => h.swap, fun h => h.swap⟩

theorem mono {R' : α → α → Prop} (hsub : ∀ x y, R x y → R' x y) {n : Nat} {x y : α}
    (h : Steps R n x y) : Steps R' n x y := by
  induction h with
  | refl x => exact .refl x
  | head hstep _ ih => exact .head (hsub _ _ hstep) ih

end Steps

/-- `n` steps lead from the set to the node. -/
def Reaches (R : α → α → Prop) (start : Set α) (n : Nat) (y : α) : Prop :=
  ∃ x ∈ start, Steps R n x y

/-- The node is `n` steps from the set and no fewer. -/
structure AtDistance (R : α → α → Prop) (start : Set α) (n : Nat) (y : α) : Prop where
  reaches : Reaches R start n y
  least : ∀ m < n, ¬ Reaches R start m y

section Distance

variable {start : Set α} {n : Nat} {x y : α}

theorem Reaches.tail (h : Reaches R start n x) (hstep : R x y) : Reaches R start (n + 1) y := by
  obtain ⟨w, hw, hsteps⟩ := h
  exact ⟨w, hw, hsteps.tail hstep⟩

theorem reaches_zero_iff : Reaches R start 0 y ↔ y ∈ start := by
  constructor
  · rintro ⟨x, hx, h⟩
    exact Steps.zero_iff.mp h ▸ hx
  · exact fun h => ⟨y, h, .refl y⟩

theorem reaches_succ_iff : Reaches R start (n + 1) y ↔ ∃ x, Reaches R start n x ∧ R x y := by
  constructor
  · rintro ⟨w, hw, h⟩
    obtain ⟨x, hsteps, hstep⟩ := Steps.succ_iff_tail.mp h
    exact ⟨x, ⟨w, hw, hsteps⟩, hstep⟩
  · rintro ⟨x, h, hstep⟩
    exact h.tail hstep

theorem atDistance_zero_iff : AtDistance R start 0 y ↔ y ∈ start :=
  ⟨fun h => reaches_zero_iff.mp h.reaches,
    fun h => ⟨reaches_zero_iff.mpr h, fun m hm => absurd hm (Nat.not_lt_zero m)⟩⟩

theorem atDistance_self : AtDistance R {x} 0 x := atDistance_zero_iff.mpr rfl

theorem AtDistance.eq {m : Nat} (h : AtDistance R start m y) (h' : AtDistance R start n y) :
    m = n := by
  rcases Nat.lt_trichotomy m n with hlt | heq | hgt
  · exact absurd h.reaches (h'.least m hlt)
  · exact heq
  · exact absurd h'.reaches (h.least n hgt)

/-- What can be reached is at some distance, which is no more. -/
theorem Reaches.atDistance (h : Reaches R start n y) : ∃ m ≤ n, AtDistance R start m y := by
  induction n using Nat.strong_induction_on with
  | _ n ih =>
    by_cases hless : ∃ m < n, Reaches R start m y
    · obtain ⟨m, hm, hreach⟩ := hless
      obtain ⟨k, hk, hat⟩ := ih m hm hreach
      exact ⟨k, hk.trans hm.le, hat⟩
    · exact ⟨n, le_rfl, h, fun m hm hreach => hless ⟨m, hm, hreach⟩⟩

/-- A node one step from the level before is at this level unless it is nearer. -/
theorem atDistance_succ_iff : AtDistance R start (n + 1) y ↔
    (∃ x, AtDistance R start n x ∧ R x y) ∧ ∀ m ≤ n, ¬ AtDistance R start m y := by
  constructor
  · intro h
    obtain ⟨x, hreach, hstep⟩ := reaches_succ_iff.mp h.reaches
    refine ⟨⟨x, ⟨hreach, fun m hm hless => ?_⟩, hstep⟩, fun m hm hat => ?_⟩
    · exact h.least (m + 1) (Nat.succ_lt_succ hm) (hless.tail hstep)
    · exact h.least m (Nat.lt_succ_of_le hm) hat.reaches
  · rintro ⟨⟨x, hat, hstep⟩, hnearer⟩
    refine ⟨hat.reaches.tail hstep, fun m hm hreach => ?_⟩
    obtain ⟨k, hk, hat'⟩ := hreach.atDistance
    exact hnearer k (hk.trans (Nat.le_of_lt_succ hm)) hat'

/-- Where a level is empty so is the next. -/
theorem atDistance_succ_empty (h : ∀ x, ¬ AtDistance R start n x) (y : α) :
    ¬ AtDistance R start (n + 1) y := fun hy => by
  obtain ⟨⟨x, hx, -⟩, -⟩ := atDistance_succ_iff.mp hy
  exact h x hx

theorem atDistance_empty_of_le {m : Nat} (h : ∀ x, ¬ AtDistance R start m x) (hle : m ≤ n) (y : α) :
    ¬ AtDistance R start n y := by
  induction n, hle using Nat.le_induction generalizing y with
  | base => exact h y
  | succ n _ ih => exact atDistance_succ_empty ih y

theorem reaches_singleton : Reaches R {x} n y ↔ Steps R n x y :=
  ⟨fun ⟨_, hw, h⟩ => Set.mem_singleton_iff.mp hw ▸ h, fun h => ⟨x, rfl, h⟩⟩

/-- Distances between two nodes are those of the converse the other way round. -/
theorem atDistance_swap : AtDistance (fun a b => R b a) {y} n x ↔ AtDistance R {x} n y := by
  constructor
  · rintro ⟨hreach, hleast⟩
    exact ⟨reaches_singleton.mpr (reaches_singleton.mp hreach).swap, fun m hm h =>
      hleast m hm (reaches_singleton.mpr (reaches_singleton.mp h).swap)⟩
  · rintro ⟨hreach, hleast⟩
    exact ⟨reaches_singleton.mpr (reaches_singleton.mp hreach).swap, fun m hm h =>
      hleast m hm (reaches_singleton.mpr (reaches_singleton.mp h).swap)⟩

end Distance

section Walks

variable {x y : α} {l : List α}

theorem steps_of_isChain (hchain : l.IsChain R) (hfirst : l.head? = some x)
    (hlast : l.getLast? = some y) : ∃ n, l.length = n + 1 ∧ Steps R n x y := by
  induction l generalizing x with
  | nil => cases hfirst
  | cons a l ih =>
    have hax : a = x := Option.some.inj hfirst
    subst hax
    cases l with
    | nil => exact ⟨0, rfl, Steps.zero_iff.mpr (Option.some.inj hlast)⟩
    | cons b l =>
      obtain ⟨hstep, hrest⟩ := List.isChain_cons_cons.mp hchain
      rw [List.getLast?_cons_cons] at hlast
      obtain ⟨n, hlen, hsteps⟩ := ih hrest rfl hlast
      exact ⟨n + 1, by rw [List.length_cons, hlen], .head hstep hsteps⟩

/-- A shortest walk comes to no node twice. -/
theorem nodup_of_shortest (hchain : l.IsChain R) (hfirst : l.head? = some x)
    (hlast : l.getLast? = some y) (hleast : ∀ n, Steps R n x y → l.length ≤ n + 1) : l.Nodup := by
  induction l generalizing x with
  | nil => exact List.nodup_nil
  | cons a l ih =>
    have hax : a = x := Option.some.inj hfirst
    subst hax
    cases l with
    | nil => exact List.nodup_singleton a
    | cons b l =>
      obtain ⟨hstep, hrest⟩ := List.isChain_cons_cons.mp hchain
      rw [List.getLast?_cons_cons] at hlast
      refine List.nodup_cons.mpr ⟨fun hmem => ?_, ih hrest rfl hlast fun n hn => ?_⟩
      · -- The walk from the second visit on would be shorter.
        obtain ⟨before, after, hsplit⟩ := List.append_of_mem hmem
        rw [hsplit] at hrest hlast
        have hlast' : (a :: after).getLast? = some y := by
          rwa [List.getLast?_append_of_ne_nil _ (List.cons_ne_nil _ _)] at hlast
        obtain ⟨n, hlen, hsteps⟩ := steps_of_isChain hrest.right_of_append rfl hlast'
        have hle := hleast n hsteps
        rw [List.length_cons, hsplit, List.length_append, hlen] at hle
        omega
      · have hle := hleast (n + 1) (.head hstep hn)
        rw [List.length_cons] at hle
        omega

end Walks

end RemyCC.Search
