import RemyCC.Json.Value
import Mathlib.Data.List.Nodup
import Mathlib.Data.List.Perm.Basic

/-!
# The fields of an object

The keys of an object are distinct and in the order of their insertion. A field
that is removed leaves its place to the last one.
-/

namespace RemyCC.Json.Value

def Keyed (fields : List (String × Value)) : Prop := (fields.map Prod.fst).Nodup

instance (fields : List (String × Value)) : Decidable (Keyed fields) :=
  inferInstanceAs (Decidable (fields.map Prod.fst).Nodup)

mutual
/-- The keys of every object in the value are distinct. -/
def wellKeyed : Value → Bool
  | .arr items => wellKeyedItems items
  | .obj fields => decide (Keyed fields) && wellKeyedFields fields
  | _ => true

def wellKeyedItems : List Value → Bool
  | [] => true
  | v :: items => wellKeyed v && wellKeyedItems items

def wellKeyedFields : List (String × Value) → Bool
  | [] => true
  | f :: fields => wellKeyedField f && wellKeyedFields fields

def wellKeyedField : String × Value → Bool
  | (_, v) => wellKeyed v
end

def removeField (key : String) : List (String × Value) → List (String × Value)
  | [] => []
  | f :: fields =>
    if f.1 = key then
      match fields.getLast? with
      | none => []
      | some last => last :: fields.dropLast
    else f :: removeField key fields

section Lookup

variable {key other : String} {v w : Value} {f : String × Value} {fields : List (String × Value)}

@[simp]
theorem field_nil (key : String) : field [] key = none := rfl

theorem field_cons : field (f :: fields) key = if f.1 = key then some f.2 else field fields key := by
  unfold field
  by_cases h : f.1 = key
  · rw [if_pos h, List.find?_cons_of_pos (by simpa using h), Option.map_some]
  · rw [if_neg h, List.find?_cons_of_neg (by simpa using h)]

theorem mem_of_field (h : field fields key = some v) : (key, v) ∈ fields := by
  induction fields with
  | nil => cases h
  | cons f fields ih =>
    rw [field_cons] at h
    split at h
    · next hkey =>
      cases h
      cases hkey
      exact List.mem_cons_self
    · exact List.mem_cons_of_mem f (ih h)

theorem field_eq_some_iff (hkeyed : Keyed fields) :
    field fields key = some v ↔ (key, v) ∈ fields := by
  refine ⟨mem_of_field, fun h => ?_⟩
  induction fields with
  | nil => cases h
  | cons f fields ih =>
    obtain ⟨hfresh, hkeyed⟩ := List.nodup_cons.mp hkeyed
    rw [field_cons]
    rcases List.mem_cons.mp h with rfl | h
    · rw [if_pos rfl]
    · have hkey : f.1 ≠ key := fun hkey => hfresh (by
        rw [hkey]
        exact List.mem_map_of_mem h)
      rw [if_neg hkey, ih hkeyed h]

theorem Keyed.field_eq_of_perm {fields' : List (String × Value)} (hkeyed : Keyed fields)
    (h : fields.Perm fields') : field fields key = field fields' key := by
  have hkeyed' : Keyed fields' := (h.map Prod.fst).nodup_iff.mp hkeyed
  refine Option.ext fun v => ?_
  rw [field_eq_some_iff hkeyed, field_eq_some_iff hkeyed', h.mem_iff]

@[simp]
theorem field_setField_self : field (setField key v fields) key = some v := by
  induction fields with
  | nil => rw [setField, field_cons, if_pos rfl]
  | cons f fields ih =>
    rw [setField]
    split
    · rw [field_cons, if_pos rfl]
    · next hkey => rw [field_cons, if_neg hkey, ih]

theorem field_setField_of_ne (h : other ≠ key) :
    field (setField key v fields) other = field fields other := by
  induction fields with
  | nil => rw [setField, field_cons, if_neg (Ne.symm h)]
  | cons f fields ih =>
    rw [setField]
    split
    · next hkey =>
      rw [field_cons, if_neg (Ne.symm h), field_cons, if_neg (hkey ▸ Ne.symm h)]
    · rw [field_cons, field_cons, ih]

theorem setField_keys :
    (setField key v fields).map Prod.fst =
      if key ∈ fields.map Prod.fst then fields.map Prod.fst else fields.map Prod.fst ++ [key] := by
  induction fields with
  | nil => rfl
  | cons f fields ih =>
    rw [setField]
    split
    · next hkey =>
      have hmem : key ∈ (f :: fields).map Prod.fst := List.mem_cons.mpr (.inl hkey.symm)
      rw [if_pos hmem, List.map_cons, List.map_cons, hkey]
    · next hkey =>
      simp only [List.map_cons, ih, List.mem_cons, Ne.symm hkey, false_or]
      split <;> rfl

theorem Keyed.setField (hkeyed : Keyed fields) : Keyed (setField key v fields) := by
  unfold Keyed
  rw [setField_keys]
  split
  · exact hkeyed
  · next h => exact List.Nodup.append hkeyed (List.nodup_singleton key) (by simpa using h)

theorem setField_setField : setField key w (setField key v fields) = setField key w fields := by
  induction fields with
  | nil => simp only [setField, if_true]
  | cons f fields ih =>
    rw [setField]
    split
    · next hkey => simp only [setField, if_true, if_pos hkey]
    · next hkey => simp only [setField, if_neg hkey, ih]

theorem setField_self (h : field fields key = some v) : setField key v fields = fields := by
  induction fields with
  | nil => cases h
  | cons f fields ih =>
    rw [field_cons] at h
    rw [setField]
    split at h
    · next hkey =>
      cases h
      cases hkey
      rw [if_pos rfl]
    · next hkey => rw [if_neg hkey, ih h]

theorem removeField_perm (key : String) (fields : List (String × Value)) :
    (removeField key fields).Perm (fields.eraseP (·.1 = key)) := by
  induction fields with
  | nil => exact List.Perm.nil
  | cons f fields ih =>
    rw [removeField]
    split
    · next hkey =>
      rw [List.eraseP_cons_of_pos (by simpa using hkey)]
      cases hlast : fields.getLast? with
      | none => rw [List.getLast?_eq_none_iff.mp hlast]
      | some last =>
        obtain ⟨init, rfl⟩ := List.getLast?_eq_some_iff.mp hlast
        simpa using (List.perm_append_singleton last init).symm
    · next hkey =>
      rw [List.eraseP_cons_of_neg (by simpa using hkey)]
      exact ih.cons f

theorem Keyed.eraseP (hkeyed : Keyed fields) (p : String × Value → Bool) :
    Keyed (fields.eraseP p) :=
  hkeyed.sublist ((List.eraseP_sublist (p := p)).map Prod.fst)

theorem Keyed.removeField (hkeyed : Keyed fields) : Keyed (removeField key fields) :=
  ((removeField_perm key fields).map Prod.fst).nodup_iff.mpr (hkeyed.eraseP _)

theorem Keyed.field_removeField (hkeyed : Keyed fields) :
    field (Value.removeField key fields) other =
      if other = key then none else field fields other := by
  rw [hkeyed.removeField.field_eq_of_perm (removeField_perm key fields)]
  induction fields with
  | nil => rw [List.eraseP_nil, field_nil, ite_self]
  | cons f fields ih =>
    obtain ⟨hfresh, hrest⟩ := List.nodup_cons.mp hkeyed
    by_cases hkey : f.1 = key
    · rw [List.eraseP_cons_of_pos (by simpa using hkey), field_cons]
      split
      · next hother =>
        refine Option.eq_none_iff_forall_not_mem.mpr fun w hw => hfresh ?_
        rw [hkey, ← hother]
        exact List.mem_map_of_mem (mem_of_field hw)
      · next hother => rw [if_neg fun h => hother (h.symm.trans hkey)]
    · rw [List.eraseP_cons_of_neg (by simpa using hkey), field_cons, field_cons, ih hrest]
      split
      · next hother => rw [if_neg fun h => hkey (hother.trans h)]
      · rfl

theorem wellKeyed_keyed (h : wellKeyed (.obj fields) = true) : Keyed fields := by
  rw [wellKeyed, Bool.and_eq_true, decide_eq_true_iff] at h
  exact h.1

theorem wellKeyed_field (h : wellKeyed (.obj fields) = true) (hfield : field fields key = some v) :
    wellKeyed v = true := by
  rw [wellKeyed, Bool.and_eq_true] at h
  obtain ⟨-, h⟩ := h
  induction fields with
  | nil => cases hfield
  | cons f fields ih =>
    rw [wellKeyedFields, Bool.and_eq_true] at h
    rw [field_cons] at hfield
    split at hfield
    · cases hfield
      obtain ⟨hv, -⟩ := h
      rwa [wellKeyedField] at hv
    · exact ih hfield h.2

theorem removeField_of_absent (h : field fields key = none) : Value.removeField key fields = fields := by
  induction fields with
  | nil => rfl
  | cons f fields ih =>
    rw [field_cons] at h
    split at h
    · cases h
    · next hkey => rw [Value.removeField, if_neg hkey, ih h]

end Lookup

/-- The values differ at most in the order of keys. -/
inductive Alike : Value → Value → Prop
  | refl (v : Value) : Alike v v
  | arr {items items' : List Value} (h : List.Forall₂ Alike items items') :
    Alike (.arr items) (.arr items')
  | obj {fields fields' : List (String × Value)}
    (h : ∀ key, Option.Rel Alike (field fields key) (field fields' key)) :
    Alike (.obj fields) (.obj fields')

theorem Alike.of_fields {fields fields' : List (String × Value)}
    (h : ∀ key, field fields key = field fields' key) : Alike (.obj fields) (.obj fields') :=
  .obj fun key => by
    rw [h key]
    cases field fields' key with
    | none => exact .none
    | some v => exact .some (.refl v)

/-- Replacing a field by one that is alike. -/
theorem Alike.setField {fields : List (String × Value)} {key : String} {v w : Value}
    (hfield : field fields key = some w) (h : Alike v w) :
    Alike (.obj (setField key v fields)) (.obj fields) :=
  .obj fun other => by
    by_cases hother : other = key
    · rw [hother, field_setField_self, hfield]
      exact .some h
    · rw [field_setField_of_ne hother]
      cases field fields other with
      | none => exact .none
      | some u => exact .some (.refl u)

theorem Alike.get {v w : Value} (h : Alike v w) (key : String) :
    Option.Rel Alike (v.get key) (w.get key) := by
  cases h with
  | refl =>
    cases v.get key with
    | none => exact .none
    | some u => exact .some (.refl u)
  | arr => exact .none
  | obj h => exact h key

theorem Alike.length {items items' : List Value} (h : Alike (.arr items) (.arr items')) :
    items.length = items'.length := by
  cases h with
  | refl => rfl
  | arr h => exact h.length_eq

end RemyCC.Json.Value
