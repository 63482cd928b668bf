import Mathlib.Data.List.Perm.Subperm
import RemyCC.Json.Layout
import RemyCC.Json.Object
import RemyCC.Json.RoundTrip

/-!
# The shape of an object

An object that has as many fields as a list of keys asks for, and each of them,
has no other field. Two such objects are alike if their fields are. What can be
printed and read back is printed on one line. A derived deserialiser sees the
members of an object as they stand in the text, those with a repeated key too,
or the items of an array.
-/

namespace RemyCC.Json.Value

variable {fields fields' : List (String × Value)} {key : String}

theorem field_isSome_iff : (field fields key).isSome ↔ key ∈ fields.map Prod.fst := by
  induction fields with
  | nil => simp
  | cons f fields ih =>
    rw [field_cons, List.map_cons, List.mem_cons]
    split
    · next hkey => simp [hkey]
    · next hkey => rw [ih, or_iff_right (Ne.symm hkey)]

theorem field_eq_none_iff : field fields key = none ↔ key ∉ fields.map Prod.fst := by
  rw [← field_isSome_iff, Option.not_isSome_iff_eq_none]

/-- All the keys asked for and no more fields than keys: just these. -/
theorem keys_perm_of_all {keys : List String} (hnodup : keys.Nodup)
    (hlength : fields.length = keys.length)
    (hall : ∀ key ∈ keys, (field fields key).isSome) : (fields.map Prod.fst).Perm keys := by
  have hsub : keys ⊆ fields.map Prod.fst := fun key hkey => field_isSome_iff.mp (hall key hkey)
  exact ((hnodup.subperm hsub).perm_of_length_le (by simp [hlength])).symm

theorem keys_perm_of_mem_iff (hkeyed : Keyed fields) (hkeyed' : Keyed fields')
    (h : ∀ key, key ∈ fields.map Prod.fst ↔ key ∈ fields'.map Prod.fst) :
    (fields.map Prod.fst).Perm (fields'.map Prod.fst) :=
  (List.perm_ext_iff_of_nodup hkeyed hkeyed').mpr h

theorem Alike.of_keys (hkeys : (fields.map Prod.fst).Perm (fields'.map Prod.fst))
    (h : ∀ key ∈ fields'.map Prod.fst, Option.Rel Alike (field fields key) (field fields' key)) :
    Alike (.obj fields) (.obj fields') :=
  .obj fun key => by
    by_cases hmem : key ∈ fields'.map Prod.fst
    · exact h key hmem
    · rw [field_eq_none_iff.mpr hmem, field_eq_none_iff.mpr fun hin => hmem (hkeys.mem_iff.mp hin)]
      exact .none

theorem Alike.of_obj {v : Value} (h : Alike v (.obj fields')) : ∃ fields, v = .obj fields ∧
    ∀ key, Option.Rel Alike (field fields key) (field fields' key) := by
  cases h with
  | refl =>
    refine ⟨fields', rfl, fun key => ?_⟩
    cases field fields' key with
    | none => exact .none
    | some v => exact .some (.refl v)
  | obj h => exact ⟨_, rfl, h⟩

theorem Alike.field_eq_some {v : Value} (h : Option.Rel Alike (field fields key) (some v)) :
    ∃ w, field fields key = some w ∧ Alike w v := by
  cases hfield : field fields key with
  | none =>
    rw [hfield] at h
    cases h
  | some w =>
    rw [hfield] at h
    cases h with
    | some h => exact ⟨w, rfl, h⟩

theorem Alike.keys_mem_iff
    (h : ∀ key, Option.Rel Alike (field fields key) (field fields' key)) (key : String) :
    key ∈ fields.map Prod.fst ↔ key ∈ fields'.map Prod.fst := by
  rw [← field_isSome_iff, ← field_isSome_iff]
  have hkey := h key
  cases hfield : field fields key with
  | none =>
    cases hfield' : field fields' key with
    | none => rfl
    | some v =>
      rw [hfield, hfield'] at hkey
      cases hkey
  | some v =>
    cases hfield' : field fields' key with
    | none =>
      rw [hfield, hfield'] at hkey
      cases hkey
    | some w => exact iff_of_true rfl rfl

section Leaves

variable {v : Value}

theorem Alike.str_eq {s : String} (h : Alike v (.str s)) : v = .str s := by
  cases h
  rfl

theorem Alike.int_eq {n : Int} (h : Alike v (.int n)) : v = .int n := by
  cases h
  rfl

theorem Alike.bool_eq {b : Bool} (h : Alike v (.bool b)) : v = .bool b := by
  cases h
  rfl

theorem Alike.null_eq (h : Alike v .null) : v = .null := by
  cases h
  rfl

theorem Alike.items {items' : List Value} (h : Alike v (.arr items')) :
    ∃ items, v = .arr items ∧ List.Forall₂ Alike items items' := by
  cases h with
  | refl => exact ⟨items', rfl, List.forall₂_same.mpr fun w _ => .refl w⟩
  | arr h => exact ⟨_, rfl, h⟩

theorem Alike.strings_eq {strings : List String} (h : Alike v (.arr (strings.map .str))) :
    v = .arr (strings.map .str) := by
  obtain ⟨items, rfl, hitems⟩ := h.items
  congr 1
  induction strings generalizing items with
  | nil => exact List.forall₂_nil_right_iff.mp hitems
  | cons s strings ih =>
    obtain ⟨item, rest, hitem, hrest, rfl⟩ := List.forall₂_cons_right_iff.mp hitems
    rw [hitem.str_eq, ih rest hrest (.arr hrest), List.map_cons]

end Leaves

end RemyCC.Json.Value

namespace RemyCC.Json

theorem Printable.oneLine {depth : Nat} {v : Value} (h : Printable depth v) : OneLine v := by
  induction h with
  | null => exact .null
  | bool b => exact .bool b
  | int _ _ => exact .int _
  | str s => exact .str s
  | arr _ ih => exact .arr ih
  | obj _ _ ih => exact .obj ih

section Members

/-- The reader is through, but for blanks. -/
def atEnd {α : Type} : Option (α × List Char) → Option α
  | some (a, rest) => if skipBlanks rest = [] then some a else none
  | none => none

def readMembers (text : String) : Option (List (String × Value)) :=
  match skipBlanks text.toList with
  | '{' :: rest => atEnd (readItems '}' (readMember (readValue 126)) rest)
  | _ => none

def readArray (text : String) : Option (List Value) :=
  match skipBlanks text.toList with
  | '[' :: rest => atEnd (readItems ']' (readValue 126) rest)
  | _ => none

variable {depth : Nat} {fields : List (String × Value)}

theorem readsBack_field {f : String × Value} (h : Printable depth f.2) :
    ReadsBack (readMember (readValue depth)) (printField compact) f := by
  obtain ⟨key, v⟩ := f
  have htext : printField compact (key, v) =
      '"' :: (key.toList.flatMap escapeChar ++ ['"'] ++ ([':'] ++ printChars compact v)) := rfl
  refine ⟨⟨'"', _, htext, by decide⟩, fun rest hrest => ?_⟩
  have hskip : skipBlanks (printChars compact v ++ rest) = printChars compact v ++ rest :=
    (h.starts.append rest).skipBlanks_eq
  have hkey := @readString_quoted compact readable_compact key.toList
  rw [compact_escape] at hkey
  rw [htext, List.cons_append, List.append_assoc, List.append_assoc, readMember]
  simp [hkey, skipBlanks_cons, isBlank, hskip, readValue_print readable_compact h hrest]

/-- The members of a printed object are its fields. -/
theorem readMembers_print (h : ∀ f ∈ fields, Printable 126 f.2) {blanks : List Char}
    (hblanks : ∀ c ∈ blanks, isBlank c = true) :
    readMembers (String.ofList (printChars compact (.obj fields) ++ blanks)) = some fields := by
  have hend : skipBlanks blanks = [] := by
    rw [← List.append_nil blanks, skipBlanks_append hblanks]
    rfl
  have hread : readItems '}' (readMember (readValue 126)) (printFields compact fields ++ '}' :: blanks) =
      some (fields, blanks) := by
    cases fields with
    | nil => exact readItems_nil (.inr rfl) blanks
    | cons f fields =>
      have hback := fun g hg => readsBack_field (h g hg)
      have hitems := @readItems_cons _ (readMember (readValue 126)) (printField compact) '}' []
        (by simp) (.inr rfl) f fields hback blanks
      simp only [printFields, printMoreFields_eq, compact_itemSep, List.append_assoc,
        List.cons_append, List.nil_append] at hitems ⊢
      exact hitems
  rw [readMembers, String.toList_ofList, printChars, List.cons_append, List.append_assoc,
    List.singleton_append, skipBlanks_cons (by decide)]
  simp only [hread, atEnd, hend, if_true]

end Members

end RemyCC.Json
