import Mathlib.Logic.Basic

/-!
# File trees

The regular files of a file system, by their paths, under operations that an
outcome given from outside allows or not.
-/

namespace RemyCC.Files

universe u v

/-- What each path holds. -/
abbrev Tree (ι : Type u) (β : Type v) := ι → Option β

section Operations

variable {ι : Type u} {β : Type v} [DecidableEq ι]

def put (p : ι) (b : β) (t : Tree ι β) : Tree ι β := fun q => if q = p then some b else t q

def drop (p : ι) (t : Tree ι β) : Tree ι β := fun q => if q = p then none else t q

/-- A rename in place of whatever the target holds; `none` where it fails. -/
def rename (allowed : Bool) (src tgt : ι) (t : Tree ι β) : Option (Tree ι β) :=
  if allowed then (t src).map fun b => put tgt b (drop src t) else none

inductive Removal (ι : Type u) (β : Type v) where
  | removed (t : Tree ι β)
  | notFound
  | failed

def remove (allowed : Bool) (p : ι) (t : Tree ι β) : Removal ι β :=
  if t p = none then .notFound else if allowed then .removed (drop p t) else .failed

end Operations

section Lemmas

variable {ι : Type u} {β : Type v} [DecidableEq ι] {t t' : Tree ι β} {p q src tgt : ι} {b : β}
variable {allowed : Bool}

@[simp]
theorem put_self : put p b t p = some b := if_pos rfl

theorem put_of_ne (h : q ≠ p) : put p b t q = t q := if_neg h

@[simp]
theorem drop_self : drop p t p = none := if_pos rfl

theorem drop_of_ne (h : q ≠ p) : drop p t q = t q := if_neg h

theorem rename_eq_some : rename allowed src tgt t = some t' ↔
    allowed = true ∧ ∃ b, t src = some b ∧ t' = put tgt b (drop src t) := by
  unfold rename
  cases allowed with
  | false => simp
  | true => simp [Option.map_eq_some_iff, eq_comm]

theorem rename_eq_none : rename allowed src tgt t = none ↔ allowed = false ∨ t src = none := by
  unfold rename
  cases allowed <;> simp

theorem rename_of_some (hallowed : allowed = true) (hsrc : t src = some b) :
    rename allowed src tgt t = some (put tgt b (drop src t)) :=
  rename_eq_some.mpr ⟨hallowed, b, hsrc, rfl⟩

/-- A rename moves what the source holds. -/
theorem rename_tgt (h : rename allowed src tgt t = some t') : t' tgt = t src := by
  obtain ⟨-, b, hsrc, rfl⟩ := rename_eq_some.mp h
  rw [put_self, hsrc]

theorem rename_src (h : rename allowed src tgt t = some t') (hne : src ≠ tgt) : t' src = none := by
  obtain ⟨-, b, -, rfl⟩ := rename_eq_some.mp h
  rw [put_of_ne hne, drop_self]

theorem rename_other (h : rename allowed src tgt t = some t') (hsrc : q ≠ src) (htgt : q ≠ tgt) :
    t' q = t q := by
  obtain ⟨-, b, -, rfl⟩ := rename_eq_some.mp h
  rw [put_of_ne htgt, drop_of_ne hsrc]

end Lemmas

end RemyCC.Files
