import RemyCC.Python.Dumps

/-!
# The identity format

Sorting the keys at every level makes values equal that differ in the order of
keys only, and the compact text of a value can be read back.
-/

namespace RemyCC.Python

open Install (sortedKeys sortedItems sortedFields)
open Json Json.Value Relational

section Fields

theorem field_of_mem {key : String} {v : Value} {fields : List (String × Value)}
    (hkeys : (fields.map Prod.fst).Nodup) (h : (key, v) ∈ fields) :
    field fields key = some v := by
  induction fields with
  | nil => cases h
  | cons f fields ih =>
    simp only [List.map_cons, List.nodup_cons] at hkeys
    rcases List.mem_cons.mp h with rfl | h
    · simp [field]
    · have hne : f.1 ≠ key := fun hf => hkeys.1 (hf ▸ List.mem_map.mpr ⟨_, h, rfl⟩)
      have htail := ih hkeys.2 h
      simpa [field, hne] using htail

theorem mem_of_field {key : String} {v : Value} {fields : List (String × Value)}
    (h : field fields key = some v) : (key, v) ∈ fields := by
  obtain ⟨f, hfind, rfl⟩ := Option.map_eq_some_iff.mp h
  have hkey : f.1 = key := by simpa using List.find?_some hfind
  rw [← hkey]
  exact List.mem_of_find?_eq_some hfind

theorem sameField_iff {f : String × Value} {fields : List (String × Value)} :
    sameField f fields = true ↔ ∃ w, field fields f.1 = some w ∧ same f.2 w = true := by
  obtain ⟨key, v⟩ := f
  rw [sameField]
  cases field fields key with
  | none => simp
  | some w => simp

theorem sameFields_iff {fields fields' : List (String × Value)} :
    sameFields fields fields' = true ↔ ∀ f ∈ fields, sameField f fields' = true := by
  induction fields with
  | nil => simp [sameFields]
  | cons f fields ih => simp [sameFields, ih]

theorem sameItems_iff {items items' : List Value} :
    sameItems items items' = true ↔ List.Forall₂ (fun v w => same v w = true) items items' := by
  induction items generalizing items' with
  | nil => cases items' <;> simp [sameItems]
  | cons v items ih => cases items' <;> simp [sameItems, ih]

theorem map_eq_map_iff {α β : Type} {f : α → β} {r : α → α → Prop} {xs ys : List α}
    (h : ∀ x ∈ xs, ∀ y ∈ ys, f x = f y ↔ r x y) : xs.map f = ys.map f ↔ List.Forall₂ r xs ys := by
  induction xs generalizing ys with
  | nil => cases ys <;> simp
  | cons x xs ih =>
    cases ys with
    | nil => simp
    | cons y ys =>
      have hhead := h x List.mem_cons_self y List.mem_cons_self
      have htail := ih fun a ha b hb => h a (List.mem_cons_of_mem _ ha) b (List.mem_cons_of_mem _ hb)
      simp [hhead, htail]

/-- Fields that are distinct by their keys are the same rows in another order as
soon as all of the first are among the second. -/
theorem perm_of_subset {fields fields' : List (String × Value)}
    (hkeys : (fields.map Prod.fst).Nodup) (hsubset : fields ⊆ fields')
    (hlength : fields'.length ≤ fields.length) : List.Perm fields fields' :=
  (List.subperm_of_subset hkeys.of_map hsubset).perm_of_length_le hlength

end Fields

section Sorted

theorem printable_sortedKeys {depth : Nat} {v : Value} (h : Printable depth v) :
    Printable depth (sortedKeys v) := by
  induction h with
  | null => exact .null
  | bool b => exact .bool b
  | int hlow hhigh => exact .int hlow hhigh
  | str s => exact .str s
  | arr hitems ih =>
    rw [sortedKeys, sortedItems_eq]
    exact .arr (List.forall_mem_map.mpr ih)
  | @obj depth fields hkeys hfields ih =>
    have hperm := orderBy_perm (compareOn Prod.fst) (sortedFields fields)
    have hsame : (sortedFields fields).map Prod.fst = fields.map Prod.fst := by
      rw [sortedFields_eq, List.map_map]
      rfl
    rw [sortedKeys]
    refine .obj ((hperm.map Prod.fst).nodup_iff.mpr (hsame ▸ hkeys)) fun f hf => ?_
    rw [mem_orderBy, sortedFields_eq] at hf
    obtain ⟨g, hg, rfl⟩ := List.mem_map.mp hf
    exact ih g hg

/-- Two lists of fields that sort alike hold the same fields. -/
theorem sortedFields_eq_iff {fields fields' : List (String × Value)}
    (hkeys : (fields.map Prod.fst).Nodup) :
    orderBy (compareOn Prod.fst) (sortedFields fields) =
      orderBy (compareOn Prod.fst) (sortedFields fields') ↔
    List.Perm (sortedFields fields) (sortedFields fields') := by
  have hsorted : ((sortedFields fields).map Prod.fst).Nodup := by
    rw [sortedFields_eq, List.map_map]
    exact hkeys
  constructor
  · intro h
    have hleft := orderBy_perm (compareOn Prod.fst) (sortedFields fields)
    rw [h] at hleft
    exact hleft.symm.trans (orderBy_perm _ _)
  · intro h
    exact orderBy_eq_of_perm h fun a ha b hb hab =>
      List.inj_on_of_nodup_map hsorted ha hb (eq_of_compareOn hab)

theorem sortedKeys_eq_iff {depth depth' : Nat} {v w : Value} (hv : Printable depth v)
    (hw : Printable depth' w) : sortedKeys v = sortedKeys w ↔ same v w = true := by
  induction hv generalizing depth' w with
  | null => cases hw <;> simp [sortedKeys, same]
  | bool b => cases hw <;> simp [sortedKeys, same]
  | int hlow hhigh => cases hw <;> simp [sortedKeys, same]
  | str s => cases hw <;> simp [sortedKeys, same]
  | @arr depth items hitems ih =>
    cases hw with
    | @arr depth' items' hitems' =>
      rw [sortedKeys, sortedKeys, Value.arr.injEq, same, sameItems_iff,
        sortedItems_eq, sortedItems_eq]
      exact map_eq_map_iff fun v hv w hw => ih v hv (hitems' w hw)
    | _ => simp [sortedKeys, same]
  | @obj depth fields hkeys hfields ih =>
    cases hw with
    | @obj depth' fields' hkeys' hfields' =>
      rw [sortedKeys, sortedKeys, Value.obj.injEq, sortedFields_eq_iff hkeys,
        same, Bool.and_eq_true, beq_iff_eq, sameFields_iff, sortedFields_eq, sortedFields_eq]
      constructor
      · intro hperm
        have hlength := hperm.length_eq
        rw [List.length_map, List.length_map] at hlength
        refine ⟨hlength, fun f hf => sameField_iff.mpr ?_⟩
        have hmem := hperm.mem_iff.mp (List.mem_map.mpr ⟨f, hf, rfl⟩)
        obtain ⟨f', hf', heq⟩ := List.mem_map.mp hmem
        obtain ⟨hkey, hvalue⟩ := Prod.mk.inj heq
        refine ⟨f'.2, ?_, (ih f hf (hfields' f' hf')).mp hvalue.symm⟩
        rw [← hkey]
        exact field_of_mem hkeys' hf'
      · rintro ⟨hlength, hall⟩
        have hdistinct : ((fields.map fun f => (f.1, sortedKeys f.2)).map Prod.fst).Nodup := by
          rw [List.map_map]
          exact hkeys
        refine perm_of_subset hdistinct ?_ (by simp [hlength])
        intro g hg
        obtain ⟨f, hf, rfl⟩ := List.mem_map.mp hg
        obtain ⟨w, hfield, hsame⟩ := sameField_iff.mp (hall f hf)
        have hw := mem_of_field hfield
        have hsorted := (ih f hf (hfields' _ hw)).mpr hsame
        exact List.mem_map.mpr ⟨(f.1, w), hw, Prod.ext rfl hsorted.symm⟩
    | _ => simp [sortedKeys, same]

theorem dumpsIdentity_eq_iff {v w : Value} (hv : Integral v) (hw : Integral w) :
    dumpsIdentity v = dumpsIdentity w ↔ same v w = true := by
  obtain ⟨depth, hv⟩ := hv
  obtain ⟨depth', hw⟩ := hw
  rw [← sortedKeys_eq_iff hv hw, dumpsIdentity, dumpsIdentity, writeValue_sorted hv,
    writeValue_sorted hw]
  constructor
  · intro htext
    have hread := readText_printChars readable_compact
      ((printable_sortedKeys hv).mono (Nat.le_max_left depth depth'))
    have hread' := readText_printChars readable_compact
      ((printable_sortedKeys hw).mono (Nat.le_max_right depth depth'))
    rw [htext, hread'] at hread
    exact (Option.some.inj hread).symm
  · intro hsorted
    rw [hsorted]

end Sorted

/-- The default format is what Python writes exactly for the values without
U+007F, and the identity format tells values apart up to the order of keys. -/
theorem dumps_exact_iff (v w : Value) (hv : Integral v) (hw : Integral w) :
    (DefaultFaithful v ↔ ∀ s ∈ texts v, delete ∉ s.toList) ∧
      (dumpsIdentity v = dumpsIdentity w ↔ same v w = true) :=
  ⟨defaultFaithful_iff hv, dumpsIdentity_eq_iff hv hw⟩

theorem dumps_exact_iff_swapped : DefaultFaithful (.obj [("é", .int 3), ("b", .null)]) ∧
    dumpsIdentity (.obj [("é", .int 3), ("b", .null)]) =
      dumpsIdentity (.obj [("b", .null), ("é", .int 3)]) := by
  have hint : Printable 0 (.int 3) := .int (by decide) (by decide)
  have hnull : Printable 0 .null := .null
  have hleft : Integral (.obj [("é", .int 3), ("b", .null)]) :=
    ⟨1, .obj (by decide) (by simp [hint, hnull])⟩
  have hright : Integral (.obj [("b", .null), ("é", .int 3)]) :=
    ⟨1, .obj (by decide) (by simp [hint, hnull])⟩
  obtain ⟨hfaithful, hsame⟩ := dumps_exact_iff _ _ hleft hright
  exact ⟨hfaithful.mpr (by decide), hsame.mpr (by decide +kernel)⟩

theorem delete_written : dumpsDefault (.str "\x7f") = "\"\x7f\"" ∧
    jsonDumps (.str "\x7f") = "\"\\u007f\"" ∧ ¬ DefaultFaithful (.str "\x7f") := by
  have hwritten : dumpsDefault (.str "\x7f") = "\"\x7f\"" := by decide +kernel
  refine ⟨hwritten, by decide +kernel, fun h => ?_⟩
  have hplain := h.plain delete (by decide +kernel)
  exact absurd hplain (by decide)

end RemyCC.Python
