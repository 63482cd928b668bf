import Mathlib.Data.List.Count
import Mathlib.Data.List.Induction
import RemyCC.Relational.Query

/-!
# Rules for sorting, grouping and counting

A sort by a lawful order depends only on which rows there are, a group holds
the rows with its key in their order, and a count over rows is a count over
whatever columns the test reads.
-/

namespace RemyCC.Relational

universe u v

variable {Row : Type u} {κ : Type v}

section Sorting

variable {cmp : Row → Row → Ordering}

theorem eq_of_compareOn [Ord κ] [Std.LawfulEqOrd κ] {column : Row → κ} {r s : Row}
    (h : compareOn column r s = .eq) : column r = column s :=
  Std.LawfulEqOrd.eq_of_compare h

/-- A column of sorted rows is the sorted column. -/
theorem map_orderBy [Ord κ] (column : Row → κ) (rows : List Row) :
    (orderBy (compareOn column) rows).map column = orderBy compare (rows.map column) := by
  unfold orderBy
  exact List.map_insertionSort _ _ column rows fun _ _ _ _ => Iff.rfl

/-- Sorting by what a function makes of the rows, and then seeing what it makes of them. -/
theorem map_orderBy_comp {Col : Type v} (column : Row → Col) (cmp : Col → Col → Ordering)
    (rows : List Row) :
    (orderBy (fun r s => cmp (column r) (column s)) rows).map column =
      orderBy cmp (rows.map column) := by
  unfold orderBy
  exact List.map_insertionSort _ _ column rows fun _ _ _ _ => Iff.rfl

theorem orderBy_pairwise [Std.TransCmp cmp] (rows : List Row) :
    (orderBy cmp rows).Pairwise fun a b => (cmp a b).isLE := by
  have : Std.Total fun a b => (cmp a b).isLE = true :=
    ⟨fun a b => by
      have hswap : cmp a b = (cmp b a).swap := Std.OrientedCmp.eq_swap
      rw [hswap]
      cases cmp b a <;> simp⟩
  have : IsTrans Row fun a b => (cmp a b).isLE = true := ⟨fun _ _ _ => Std.TransCmp.isLE_trans⟩
  exact List.pairwise_insertionSort _ rows

/-- Sorting forgets the order that rows had before, if no two of them tie. -/
theorem orderBy_eq_of_perm [Std.TransCmp cmp] {rows rows' : List Row} (h : List.Perm rows rows')
    (hties : ∀ a ∈ rows, ∀ b ∈ rows, cmp a b = .eq → a = b) :
    orderBy cmp rows = orderBy cmp rows' := by
  have hperm : List.Perm (orderBy cmp rows) (orderBy cmp rows') :=
    ((orderBy_perm _ _).trans h).trans (orderBy_perm _ _).symm
  refine hperm.eq_of_pairwise (fun a b ha hb hab hba => ?_) (orderBy_pairwise _) (orderBy_pairwise _)
  exact hties a (mem_orderBy.mp ha) b (h.mem_iff.mpr (mem_orderBy.mp hb))
    (Std.OrientedCmp.isLE_antisymm hab hba)

theorem sortedSet_eq_of_perm [DecidableEq κ] [Ord κ] [Std.TransOrd κ] [Std.LawfulEqOrd κ]
    {values values' : List κ} (h : List.Perm values values') :
    sortedSet values = sortedSet values' :=
  orderBy_eq_of_perm h.dedup fun _ _ _ _ => Std.LawfulEqCmp.eq_of_compare

/-- The rows that a comparison does not tell apart. -/
def tieSetoid (cmp : Row → Row → Ordering) [Std.TransCmp cmp] : Setoid Row where
  r a b := cmp a b = .eq
  iseqv := ⟨fun _ => Std.ReflCmp.compare_self, Std.OrientedCmp.eq_symm, Std.TransCmp.eq_trans⟩

/-- Sorting forgets the order that rows had before, as far as tied rows look alike. -/
theorem map_orderBy_eq_of_perm {β : Type v} [Std.TransCmp cmp] {view : Row → β}
    (hview : ∀ a b, cmp a b = .eq → view a = view b) {rows rows' : List Row}
    (h : List.Perm rows rows') : (orderBy cmp rows).map view = (orderBy cmp rows').map view := by
  let tie := tieSetoid cmp
  let cmpClass : Quotient tie → Quotient tie → Ordering :=
    Quotient.lift₂ cmp fun a b a' b' (ha : cmp a a' = .eq) (hb : cmp b b' = .eq) =>
      (Std.TransCmp.congr_left ha).trans (Std.TransCmp.congr_right hb)
  have htrans : Std.TransCmp cmpClass :=
    { eq_swap := fun {a b} => by
        induction a, b using Quotient.inductionOn₂ with
        | h a b =>
          have hswap : cmp a b = (cmp b a).swap := Std.OrientedCmp.eq_swap
          exact hswap
      isLE_trans := fun {a b c} => by
        induction a, b, c using Quotient.inductionOn₃ with
        | h a b c =>
          have hle : (cmp a b).isLE → (cmp b c).isLE → (cmp a c).isLE := Std.TransCmp.isLE_trans
          exact hle }
  have hsort : ∀ rows : List Row, (orderBy cmp rows).map (Quotient.mk tie) =
      orderBy cmpClass (rows.map (Quotient.mk tie)) := fun rows =>
    List.map_insertionSort _ _ _ rows fun _ _ _ _ => Iff.rfl
  have hclass : (orderBy cmp rows).map (Quotient.mk tie) =
      (orderBy cmp rows').map (Quotient.mk tie) := by
    rw [hsort, hsort]
    refine orderBy_eq_of_perm (h.map _) fun a _ b _ hab => ?_
    induction a, b using Quotient.inductionOn₂ with
    | h a b => exact Quotient.sound hab
  have hlift : ∀ rows : List Row, rows.map view =
      (rows.map (Quotient.mk tie)).map (Quotient.lift view hview) := fun rows => by
    rw [List.map_map]
    rfl
  rw [hlift, hclass, ← hlift]

end Sorting

section Grouping

variable [DecidableEq κ] {key : Row → κ}

theorem groupsBy_concat (rows : List Row) (r : Row) :
    groupsBy key (rows ++ [r]) = addToGroup (key r) r (groupsBy key rows) := by
  unfold groupsBy
  rw [List.foldl_append]
  rfl

theorem addToGroup_filter_ne {k k' : κ} (h : k ≠ k') (r : Row) (groups : List (κ × List Row)) :
    (addToGroup k r groups).filter (fun g => g.1 = k') = groups.filter fun g => g.1 = k' := by
  induction groups with
  | nil => simp [addToGroup, h]
  | cons g groups ih =>
    unfold addToGroup
    split
    · rename_i hk
      simp [h, hk]
    · rw [List.filter_cons, ih, List.filter_cons]

theorem addToGroup_filter_self (k : κ) (r : Row) (groups : List (κ × List Row)) :
    (addToGroup k r groups).filter (fun g => g.1 = k) =
      match groups.filter fun g => g.1 = k with
      | [] => [(k, [r])]
      | g :: rest => (k, g.2 ++ [r]) :: rest := by
  induction groups with
  | nil => simp [addToGroup]
  | cons g groups ih =>
    unfold addToGroup
    split
    · rename_i hk
      simp [hk]
    · rename_i hk
      simp [hk, ih]

/-- There is one group for each key that a row has. -/
theorem groupsBy_filter (key : Row → κ) (rows : List Row) (k : κ) :
    (groupsBy key rows).filter (fun g => g.1 = k) =
      match rows.filter fun r => key r = k with
      | [] => []
      | group => [(k, group)] := by
  induction rows using List.reverseRecOn with
  | nil => rfl
  | append_singleton rows r ih =>
    rw [groupsBy_concat, List.filter_append]
    by_cases hk : key r = k
    · have hself : [r].filter (fun r => key r = k) = [r] := by simp [hk]
      subst hk
      rw [addToGroup_filter_self, ih, hself]
      cases rows.filter fun s => key s = key r with
      | nil => rfl
      | cons s group => rfl
    · have hnone : [r].filter (fun r => key r = k) = [] := by simp [hk]
      rw [addToGroup_filter_ne hk, ih, hnone, List.append_nil]

theorem groupsBy_rows {rows : List Row} {g : κ × List Row} (hg : g ∈ groupsBy key rows) :
    g.2 = rows.filter fun r => key r = g.1 := by
  have hmem : g ∈ (groupsBy key rows).filter fun g' => g'.1 = g.1 :=
    List.mem_filter.mpr ⟨hg, decide_eq_true rfl⟩
  rw [groupsBy_filter] at hmem
  split at hmem
  · exact absurd hmem List.not_mem_nil
  · exact congrArg Prod.snd (List.mem_singleton.mp hmem)

theorem mem_keys_groupsBy {rows : List Row} {k : κ} :
    k ∈ (groupsBy key rows).map Prod.fst ↔ k ∈ rows.map key := by
  constructor
  · intro hk
    obtain ⟨g, hg, rfl⟩ := List.mem_map.mp hk
    have hmem : g ∈ (groupsBy key rows).filter fun g' => g'.1 = g.1 :=
      List.mem_filter.mpr ⟨hg, decide_eq_true rfl⟩
    rw [groupsBy_filter] at hmem
    split at hmem
    · exact absurd hmem List.not_mem_nil
    · next hgroup =>
      obtain ⟨r, hr⟩ := List.exists_mem_of_ne_nil _ hgroup
      have hr := List.mem_filter.mp hr
      exact List.mem_map.mpr ⟨r, hr.1, of_decide_eq_true hr.2⟩
  · intro hk
    obtain ⟨r, hr, rfl⟩ := List.mem_map.mp hk
    have hfilter := groupsBy_filter key rows (key r)
    have hr : r ∈ rows.filter fun s => key s = key r := List.mem_filter.mpr ⟨hr, decide_eq_true rfl⟩
    split at hfilter
    · next hnil => exact absurd (hnil ▸ hr) List.not_mem_nil
    · have hg : _ ∈ (groupsBy key rows).filter fun g => g.1 = key r :=
        hfilter ▸ List.mem_singleton_self _
      exact List.mem_map.mpr ⟨_, (List.mem_filter.mp hg).1, rfl⟩

theorem nodup_keys_groupsBy (key : Row → κ) (rows : List Row) :
    ((groupsBy key rows).map Prod.fst).Nodup := by
  refine List.nodup_iff_count_le_one.mpr fun k => ?_
  have hcount : ((groupsBy key rows).map Prod.fst).count k =
      ((groupsBy key rows).filter fun g => g.1 = k).length := by
    rw [List.count, List.countP_map, List.countP_eq_length_filter]
    rfl
  rw [hcount, groupsBy_filter]
  split
  · exact Nat.zero_le 1
  · exact le_rfl

theorem orderBy_keys_groupsBy [Ord κ] [Std.TransOrd κ] [Std.LawfulEqOrd κ] (key : Row → κ)
    (rows : List Row) :
    orderBy compare ((groupsBy key rows).map Prod.fst) = sortedSet (rows.map key) := by
  refine orderBy_eq_of_perm ?_ fun _ _ _ _ => Std.LawfulEqCmp.eq_of_compare
  refine (List.perm_ext_iff_of_nodup (nodup_keys_groupsBy key rows) (List.nodup_dedup _)).mpr ?_
  intro k
  rw [List.mem_dedup, mem_keys_groupsBy]

/-- Groups taken in the order of their keys. -/
theorem orderBy_groupsBy [Ord κ] [Std.TransOrd κ] [Std.LawfulEqOrd κ] (key : Row → κ)
    (rows : List Row) : orderBy (compareOn Prod.fst) (groupsBy key rows) =
      (sortedSet (rows.map key)).map fun k => (k, rows.filter fun r => key r = k) := by
  rw [← orderBy_keys_groupsBy, ← map_orderBy, List.map_map]
  refine (List.map_id' _).symm.trans (List.map_congr_left fun g hg => ?_)
  exact Prod.ext rfl (groupsBy_rows (mem_orderBy.mp hg))

theorem find_groupsBy {rows : List Row} {k : κ} (hk : k ∈ rows.map key) :
    (groupsBy key rows).find? (fun g => g.1 == k) = some (k, rows.filter fun r => key r = k) := by
  obtain ⟨r, hr, rfl⟩ := List.mem_map.mp hk
  have hr : r ∈ rows.filter fun s => key s = key r := List.mem_filter.mpr ⟨hr, decide_eq_true rfl⟩
  have hfilter := groupsBy_filter key rows (key r)
  rw [← List.head?_filter]
  simp only [beq_eq_decide]
  rw [hfilter]
  split
  · next hnil => exact absurd (hnil ▸ hr) List.not_mem_nil
  · rfl

/-- The rows with one key among what each of distinct keys contributes. -/
theorem filter_flatMap_keyed {keys : List κ} (hnodup : keys.Nodup) (contribution : κ → List Row)
    (hkeyed : ∀ k, ∀ r ∈ contribution k, key r = k) (k : κ) :
    (keys.flatMap contribution).filter (fun r => key r = k) =
      if k ∈ keys then contribution k else [] := by
  induction keys with
  | nil => rfl
  | cons k' keys ih =>
    obtain ⟨hnot, hnodup⟩ := List.nodup_cons.mp hnodup
    rw [List.flatMap_cons, List.filter_append, ih hnodup]
    by_cases hk : k' = k
    · subst hk
      have hall : (contribution k').filter (fun r => key r = k') = contribution k' :=
        List.filter_eq_self.mpr fun r hr => decide_eq_true (hkeyed k' r hr)
      rw [hall, if_neg hnot, if_pos List.mem_cons_self, List.append_nil]
    · have hnone : (contribution k').filter (fun r => key r = k) = [] :=
        List.filter_eq_nil_iff.mpr fun r hr hr' =>
          hk ((hkeyed k' r hr).symm.trans (of_decide_eq_true hr'))
      rw [hnone, List.nil_append]
      simp [Ne.symm hk]

end Grouping

section Counting

variable {α : Type u}

/-- Lists that have every value of a kind equally often have equally many of that kind. -/
theorem countP_eq_of_count [BEq α] [LawfulBEq α] {p : α → Bool} {l l' : List α}
    (h : ∀ a, p a = true → l.count a = l'.count a) : l.countP p = l'.countP p := by
  have hperm : List.Perm (l.filter p) (l'.filter p) := by
    refine List.perm_iff_count.mpr fun a => ?_
    cases ha : p a with
    | true => rw [List.count_filter ha, List.count_filter ha, h a ha]
    | false =>
      have hnone : ∀ xs : List α, (xs.filter p).count a = 0 := fun xs =>
        List.count_eq_zero.mpr fun hmem => by simp [ha] at hmem
      rw [hnone, hnone]
  rw [List.countP_eq_length_filter, List.countP_eq_length_filter, hperm.length_eq]

/-- Two conditional maps of one list agree where all their chosen values agree. -/
theorem filterMap_ite_eq_iff {β : Type v} {cond : α → Bool} {f f' : α → β} {l : List α} :
    l.filterMap (fun a => if cond a then none else some (f a)) =
        l.filterMap (fun a => if cond a then none else some (f' a)) ↔
      ∀ a ∈ l, cond a = false → f a = f' a := by
  induction l with
  | nil => simp
  | cons a l ih =>
    cases ha : cond a with
    | true => simp [ha, ih]
    | false => simp [ha, ih]

end Counting

end RemyCC.Relational
