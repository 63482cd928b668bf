import RemyCC.Search.Distance
import Mathlib.Data.List.Perm.Basic

/-!
# Search level by level

The search lists what is new one step from the last level, and stops at the
first level that lists nothing or when it has gone deep enough. Each level
lists exactly the nodes at its distance from the start.
-/

namespace RemyCC.Search

universe u

variable {α : Type u} {R : α → α → Prop} {before : α → α → Prop}

/-- The levels from `depth` on, at most `fuel` of them. -/
def levelsFrom (fresh : List α → List α → List α) :
    Nat → Nat → List α → List α → List (Nat × List α)
  | 0, _, _, _ => []
  | fuel + 1, depth, visited, current =>
    match fresh visited current with
    | [] => []
    | next => (depth, next) :: levelsFrom fresh fuel (depth + 1) (visited ++ next) next

/-- The list of what is new, in its order. -/
structure Fresh (R before : α → α → Prop) (fresh : List α → List α → List α) : Prop where
  sorted : ∀ visited current, (fresh visited current).Pairwise before
  mem : ∀ visited current y, y ∈ fresh visited current ↔ (∃ x ∈ current, R x y) ∧ y ∉ visited

/-- The levels `first`, `first + 1` and so on, up to the first empty one or to `last`. -/
structure Exact (R before : α → α → Prop) (start : Set α) (first last : Nat)
    (levels : List (Nat × List α)) : Prop where
  numbered : levels.map Prod.fst = List.range' first levels.length
  within : first + levels.length ≤ last + 1
  level : ∀ l ∈ levels, l.2 ≠ [] ∧ l.2.Pairwise before ∧ ∀ y, y ∈ l.2 ↔ AtDistance R start l.1 y
  stops : first + levels.length ≤ last → ∀ y, ¬ AtDistance R start (first + levels.length) y

/-- The state of a search that has seen the levels up to `n`. -/
structure Searched (R : α → α → Prop) (start : Set α) (n : Nat) (visited current : List α) :
    Prop where
  visited : ∀ y, y ∈ visited ↔ ∃ m ≤ n, AtDistance R start m y
  current : ∀ y, y ∈ current ↔ AtDistance R start n y

section Searching

variable {start : Set α} {n : Nat} {visited current : List α}
variable {fresh : List α → List α → List α}

theorem searched_start {seeds : List α} : Searched R {x | x ∈ seeds} 0 seeds seeds := by
  refine ⟨fun y => ?_, fun y => ?_⟩
  · constructor
    · exact fun hy => ⟨0, le_rfl, atDistance_zero_iff.mpr hy⟩
    · rintro ⟨m, hm, hy⟩
      rw [Nat.le_zero.mp hm] at hy
      have hseed := atDistance_zero_iff.mp hy
      exact hseed
  · have hzero := @atDistance_zero_iff α R {x | x ∈ seeds} y
    exact hzero.symm

theorem Searched.of_mem_iff (h : Searched R start n visited current) {current' : List α}
    (hiff : ∀ y, y ∈ current ↔ y ∈ current') : Searched R start n visited current' :=
  ⟨h.visited, fun y => (hiff y).symm.trans (h.current y)⟩

theorem Searched.mem_fresh (h : Searched R start n visited current) (hfresh : Fresh R before fresh)
    (y : α) : y ∈ fresh visited current ↔ AtDistance R start (n + 1) y := by
  rw [hfresh.mem, atDistance_succ_iff, h.visited]
  simp only [h.current, not_exists, not_and]

theorem Searched.next (h : Searched R start n visited current) {next : List α}
    (hnext : ∀ y, y ∈ next ↔ AtDistance R start (n + 1) y) :
    Searched R start (n + 1) (visited ++ next) next := by
  refine ⟨fun y => ?_, hnext⟩
  · rw [List.mem_append, h.visited, hnext]
    constructor
    · rintro (⟨m, hm, hy⟩ | hy)
      · exact ⟨m, hm.trans n.le_succ, hy⟩
      · exact ⟨n + 1, le_rfl, hy⟩
    · rintro ⟨m, hm, hy⟩
      rcases Nat.le_succ_iff.mp hm with hm | rfl
      · exact .inl ⟨m, hm, hy⟩
      · exact .inr hy

theorem levelsFrom_of_searched (hfresh : Fresh R before fresh) (fuel : Nat)
    (h : Searched R start n visited current) :
    Exact R before start (n + 1) (n + fuel) (levelsFrom fresh fuel (n + 1) visited current) := by
  induction fuel generalizing n visited current with
  | zero =>
    refine ⟨rfl, le_rfl, fun l hl => ?_, fun hle => ?_⟩
    · cases hl
    · simp only [levelsFrom, List.length_nil] at hle
      omega
  | succ fuel ih =>
    have hmem := h.mem_fresh hfresh
    have hsorted := hfresh.sorted visited current
    unfold levelsFrom
    generalize fresh visited current = next at hmem hsorted
    match next with
    | [] =>
      refine ⟨rfl, ?_, fun l hl => ?_, fun _ y hy => ?_⟩
      · simp only [List.length_nil]
        omega
      · cases hl
      · exact List.not_mem_nil ((hmem y).mpr hy)
    | x :: xs =>
      obtain ⟨hnumbered, hwithin, hlevel, hstops⟩ := ih (h.next hmem)
      have hsum : n + 1 + fuel = n + (fuel + 1) := by omega
      rw [hsum] at hwithin hstops
      simp only
      refine ⟨?_, ?_, fun l hl => ?_, fun hle y => ?_⟩
      · rw [List.map_cons, hnumbered]
        rfl
      · rw [List.length_cons]
        omega
      · rcases List.mem_cons.mp hl with rfl | hl
        · exact ⟨List.cons_ne_nil _ _, hsorted, hmem⟩
        · exact hlevel l hl
      · rw [List.length_cons] at hle ⊢
        have hlast := hstops (by omega) y
        rwa [Nat.add_right_comm (n + 1) 1, Nat.add_assoc (n + 1)] at hlast

/-- A search from a set of seeds finds the levels from the first on. -/
theorem levelsFrom_exact (hfresh : Fresh R before fresh) (depth : Nat) (seeds : List α) :
    Exact R before {x | x ∈ seeds} 1 depth (levelsFrom fresh depth 1 seeds seeds) := by
  have h := levelsFrom_of_searched hfresh depth (@searched_start α R seeds)
  rwa [Nat.zero_add, Nat.zero_add] at h

end Searching

/-- There is one list of what is new if no two nodes come before each other. -/
theorem Fresh.eq {fresh fresh' : List α → List α → List α} (h : Fresh R before fresh)
    (h' : Fresh R before fresh') (hasymm : ∀ x y, before x y → ¬ before y x) : fresh = fresh' := by
  funext visited current
  have hnodup : ∀ {l : List α}, l.Pairwise before → l.Nodup := by
    intro l hl
    refine List.Pairwise.imp (fun {x y} hlt => ?_) hl
    rintro rfl
    exact hasymm x x hlt hlt
  have hperm : List.Perm (fresh visited current) (fresh' visited current) :=
    (List.perm_ext_iff_of_nodup (hnodup (h.sorted _ _)) (hnodup (h'.sorted _ _))).mpr fun y => by
      rw [h.mem, h'.mem]
  exact hperm.eq_of_pairwise (fun x y _ _ hxy hyx => absurd hyx (hasymm x y hxy)) (h.sorted _ _)
    (h'.sorted _ _)

/-- A node listed at some level is at its distance, and the other way round up to the last. -/
theorem Exact.mem_iff {start : Set α} {last : Nat} {levels : List (Nat × List α)}
    (h : Exact R before start 1 last levels) {i : Nat} {y : α} :
    (∃ l ∈ levels, l.1 = i ∧ y ∈ l.2) ↔ 1 ≤ i ∧ i ≤ last ∧ AtDistance R start i y := by
  have hnumber : ∀ i, (∃ l ∈ levels, l.1 = i) ↔ 1 ≤ i ∧ i < 1 + levels.length := by
    intro i
    rw [← List.mem_range'_1, ← h.numbered, List.mem_map]
  constructor
  · rintro ⟨l, hl, rfl, hy⟩
    obtain ⟨hfirst, hlast⟩ := (hnumber l.1).mp ⟨l, hl, rfl⟩
    have hwithin := h.within
    exact ⟨hfirst, by omega, ((h.level l hl).2.2 y).mp hy⟩
  · rintro ⟨hfirst, hlast, hy⟩
    by_cases hlisted : i < 1 + levels.length
    · obtain ⟨l, hl, rfl⟩ := (hnumber i).mpr ⟨hfirst, hlisted⟩
      exact ⟨l, hl, rfl, ((h.level l hl).2.2 y).mpr hy⟩
    · have hle := Nat.le_of_not_lt hlisted
      exact absurd hy (atDistance_empty_of_le (h.stops (hle.trans hlast)) hle y)

/-- The levels around two nodes in a relation and in its converse are dual. -/
theorem Exact.dual {x y : α} {last : Nat} {up down : List (Nat × List α)}
    (hup : Exact (fun a b => R b a) before {z | z ∈ [x]} 1 last up)
    (hdown : Exact R before {z | z ∈ [y]} 1 last down)
    (i : Nat) : (∃ l ∈ up, l.1 = i ∧ y ∈ l.2) ↔ ∃ l ∈ down, l.1 = i ∧ x ∈ l.2 := by
  have hone (z : α) : {w | w ∈ [z]} = ({z} : Set α) := by
    ext w
    simp
  rw [hup.mem_iff, hdown.mem_iff, hone, hone, atDistance_swap]

section Chunks

def chunksFrom {α : Type u} (size : Nat) : Nat → List α → List (List α)
  | 0, _ => []
  | _ + 1, [] => []
  | fuel + 1, x :: xs => (x :: xs.take (size - 1)) :: chunksFrom size fuel (xs.drop (size - 1))

/-- The list cut into pieces of a positive size, of which the last may be shorter. -/
def chunks {α : Type u} (size : Nat) (xs : List α) : List (List α) := chunksFrom size xs.length xs

theorem flatten_chunksFrom {α : Type u} (size fuel : Nat) (xs : List α) (h : xs.length ≤ fuel) :
    (chunksFrom size fuel xs).flatten = xs := by
  induction fuel generalizing xs with
  | zero => exact (List.length_eq_zero_iff.mp (Nat.le_zero.mp h)).symm
  | succ fuel ih =>
    cases xs with
    | nil => rfl
    | cons x xs =>
      rw [List.length_cons] at h
      have hrest := ih (xs.drop (size - 1)) (by rw [List.length_drop]; omega)
      rw [chunksFrom, List.flatten_cons, hrest, List.cons_append, List.take_append_drop]

theorem flatten_chunks {α : Type u} (size : Nat) (xs : List α) : (chunks size xs).flatten = xs :=
  flatten_chunksFrom size xs.length xs le_rfl

end Chunks

end RemyCC.Search
