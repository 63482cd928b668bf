import RemyCC.Json.Object
import RemyCC.Json.Parse

/-!
# The keys of what is read

An object takes the last value that a text gives for a key, so the keys of what
is read are distinct.
-/

namespace RemyCC.Json

open Value

section Items

variable {α : Type} {P : α → Prop} {close : Char} {item : Reader α}

theorem readMore_all (hitem : ∀ text a rest, item text = some (a, rest) → P a) {turns : Nat}
    {text rest : List Char} {as : List α} (h : readMore close item turns text = some (as, rest)) :
    ∀ a ∈ as, P a := by
  induction turns generalizing text as with
  | zero => cases h
  | succ turns ih =>
    unfold readMore at h
    split at h
    · split at h
      · cases h
        simp
      · split at h
        · split at h
          · next a rest' hfirst =>
            split at h
            · next as' rest'' hmore =>
              cases h
              exact List.forall_mem_cons.mpr ⟨hitem _ _ _ hfirst, ih hmore⟩
            · cases h
          · cases h
        · cases h
    · cases h

theorem readItems_all (hitem : ∀ text a rest, item text = some (a, rest) → P a)
    {text rest : List Char} {as : List α} (h : readItems close item text = some (as, rest)) :
    ∀ a ∈ as, P a := by
  unfold readItems at h
  split at h
  · split at h
    · cases h
      simp
    · split at h
      · next a rest' hfirst =>
        split at h
        · next as' rest'' hmore =>
          cases h
          exact List.forall_mem_cons.mpr ⟨hitem _ _ _ hfirst, readMore_all hitem hmore⟩
        · cases h
      · cases h
  · cases h

end Items

section Keys

theorem wellKeyedItems_iff {items : List Value} :
    wellKeyedItems items = true ↔ ∀ v ∈ items, wellKeyed v = true := by
  induction items with
  | nil => simp [wellKeyedItems]
  | cons v items ih => rw [wellKeyedItems, Bool.and_eq_true, ih, List.forall_mem_cons]

theorem wellKeyedFields_iff {fields : List (String × Value)} :
    wellKeyedFields fields = true ↔ ∀ f ∈ fields, wellKeyed f.2 = true := by
  induction fields with
  | nil => simp [wellKeyedFields]
  | cons f fields ih =>
    rw [wellKeyedFields, Bool.and_eq_true, ih, List.forall_mem_cons, wellKeyedField]

theorem mem_setField {key : String} {v : Value} {fields : List (String × Value)}
    {f : String × Value} (h : f ∈ setField key v fields) : f = (key, v) ∨ f ∈ fields := by
  induction fields with
  | nil => exact .inl (List.mem_singleton.mp h)
  | cons g fields ih =>
    rw [setField] at h
    split at h
    · exact (List.mem_cons.mp h).imp_right (List.mem_cons_of_mem g)
    · rcases List.mem_cons.mp h with rfl | h
      · exact .inr List.mem_cons_self
      · exact (ih h).imp_right (List.mem_cons_of_mem g)

theorem foldl_setField_keyed (members : List (String × Value)) {fields : List (String × Value)}
    (hkeyed : Keyed fields) :
    Keyed (members.foldl (fun fields m => setField m.1 m.2 fields) fields) := by
  induction members generalizing fields with
  | nil => exact hkeyed
  | cons m members ih => exact ih hkeyed.setField

theorem mem_foldl_setField {members fields : List (String × Value)} {f : String × Value}
    (h : f ∈ members.foldl (fun fields m => setField m.1 m.2 fields) fields) :
    f ∈ members ∨ f ∈ fields := by
  induction members generalizing fields with
  | nil => exact .inr h
  | cons m members ih =>
    rcases ih h with h | h
    · exact .inl (List.mem_cons_of_mem m h)
    · exact (mem_setField h).imp_left fun heq => by rw [heq]; exact List.mem_cons_self

theorem objectOf_wellKeyed {members : List (String × Value)}
    (h : ∀ m ∈ members, wellKeyed m.2 = true) : wellKeyed (objectOf members) = true := by
  rw [objectOf, wellKeyed, Bool.and_eq_true, decide_eq_true_iff, wellKeyedFields_iff]
  refine ⟨foldl_setField_keyed members List.nodup_nil, fun f hf => ?_⟩
  rcases mem_foldl_setField hf with hf | hf
  · exact h f hf
  · cases hf

theorem readMagnitude_wellKeyed {negative : Bool} {text rest : List Char} {v : Value}
    (h : readMagnitude negative text = some (v, rest)) : wellKeyed v = true := by
  unfold readMagnitude at h
  split at h
  · cases h
  · split at h
    · cases h
    · split at h
      · cases h
      · split at h
        · cases h
        · cases h
          unfold numberValue
          dsimp only
          split
          · rfl
          · split <;> rfl

theorem readNumber_wellKeyed {text rest : List Char} {v : Value}
    (h : readNumber text = some (v, rest)) : wellKeyed v = true := by
  unfold readNumber at h
  split at h <;> exact readMagnitude_wellKeyed h

theorem readMember_wellKeyed {value : Reader Value}
    (hvalue : ∀ text v rest, value text = some (v, rest) → wellKeyed v = true)
    {text rest : List Char} {m : String × Value} (h : readMember value text = some (m, rest)) :
    wellKeyed m.2 = true := by
  unfold readMember at h
  split at h
  · split at h
    · split at h
      · split at h
        · next v rest' hread =>
          cases h
          exact hvalue _ _ _ hread
        · cases h
      · cases h
    · cases h
  · cases h

/-- The induction is on the depth: what stands in a container is read one level deeper. -/
theorem readValue_wellKeyed (depth : Nat) {text rest : List Char} {v : Value}
    (h : readValue depth text = some (v, rest)) : wellKeyed v = true := by
  induction depth using Nat.strongRecOn generalizing text rest v with
  | _ depth ih =>
    unfold readValue at h
    split at h
    case h_4 =>
      obtain ⟨_, _, heq⟩ := Option.map_eq_some_iff.mp h
      cases heq
      rfl
    case h_5 below _ =>
      obtain ⟨⟨items, _⟩, hitems, heq⟩ := Option.map_eq_some_iff.mp h
      cases heq
      rw [wellKeyed, wellKeyedItems_iff]
      exact readItems_all (fun _ _ _ hitem => ih below (Nat.lt_succ_self below) hitem) hitems
    case h_6 below _ =>
      obtain ⟨⟨members, _⟩, hmembers, heq⟩ := Option.map_eq_some_iff.mp h
      cases heq
      exact objectOf_wellKeyed (readItems_all (fun _ _ _ hmember => readMember_wellKeyed
        (fun _ _ _ hvalue => ih below (Nat.lt_succ_self below) hvalue) hmember) hmembers)
    case h_9 => exact readNumber_wellKeyed h
    all_goals cases h
    all_goals rfl

theorem parse_wellKeyed {text : String} {v : Value} (h : parse text = some v) :
    wellKeyed v = true := by
  unfold parse readText at h
  split at h
  · next v' rest hread =>
    split at h
    · cases h
      exact readValue_wellKeyed 127 hread
    · cases h
  · cases h

end Keys

end RemyCC.Json
