import Mathlib.Data.List.Nodup
import Mathlib.Data.List.Pairwise

/-!
# Tables with a key

Two kinds of tables that carry the proof of their key. In a keyed table no two
rows have the same key; in a numbered one each new row gets a number above
every number ever given out, so the numbers increase along the table.
-/

namespace RemyCC.Relational

universe u v

variable {Row : Type u} {κ : Type v}

structure Keyed (key : Row → κ) where
  rows : List Row
  distinct : (rows.map key).Nodup

namespace Keyed

variable {key : Row → κ}

def empty : Keyed key where
  rows := []
  distinct := List.nodup_nil

theorem ext {t t' : Keyed key} (h : t.rows = t'.rows) : t = t' := by
  obtain ⟨rows, hdistinct⟩ := t
  subst h
  rfl

theorem eq_of_key (t : Keyed key) {r s : Row} (hr : r ∈ t.rows) (hs : s ∈ t.rows)
    (h : key r = key s) : r = s :=
  List.inj_on_of_nodup_map t.distinct hr hs h

def deleteWhere (p : Row → Bool) (t : Keyed key) : Keyed key where
  rows := t.rows.filter fun r => !p r
  distinct := t.distinct.sublist (List.Sublist.map key List.filter_sublist)

@[simp]
theorem deleteWhere_rows (p : Row → Bool) (t : Keyed key) :
    (t.deleteWhere p).rows = t.rows.filter fun r => !p r := rfl

/-- A change of every row that leaves the key alone. -/
def update (edit : Row → Row) (h : ∀ r, key (edit r) = key r) (t : Keyed key) : Keyed key where
  rows := t.rows.map edit
  distinct := by
    have hkey : key ∘ edit = key := funext h
    rw [List.map_map, hkey]
    exact t.distinct

@[simp]
theorem update_rows (edit : Row → Row) (h : ∀ r, key (edit r) = key r) (t : Keyed key) :
    (t.update edit h).rows = t.rows.map edit := rfl

def append (t : Keyed key) (rows : List Row) (hrows : (rows.map key).Nodup)
    (hfresh : ∀ r ∈ rows, ∀ s ∈ t.rows, key s ≠ key r) : Keyed key where
  rows := t.rows ++ rows
  distinct := by
    rw [List.map_append]
    refine List.nodup_append.mpr ⟨t.distinct, hrows, ?_⟩
    intro a ha b hb
    obtain ⟨s, hs, rfl⟩ := List.mem_map.mp ha
    obtain ⟨r, hr, rfl⟩ := List.mem_map.mp hb
    exact hfresh r hr s hs

@[simp]
theorem append_rows (t : Keyed key) (rows : List Row) (hrows : (rows.map key).Nodup)
    (hfresh : ∀ r ∈ rows, ∀ s ∈ t.rows, key s ≠ key r) :
    (t.append rows hrows hfresh).rows = t.rows ++ rows := rfl

/-- The row under a key is changed where there is one and inserted where not. -/
def upsert [DecidableEq κ] (k : κ) (edit : Row → Row) (hedit : ∀ r, key (edit r) = key r)
    (new : Row) (hnew : key new = k) (t : Keyed key) : Keyed key :=
  if h : ∃ r ∈ t.rows, key r = k then
    t.update (fun r => if key r = k then edit r else r) (by
      intro r
      split
      · exact hedit r
      · rfl)
  else t.append [new] (List.nodup_singleton _) (by
    intro r hr s hs hk
    rw [List.mem_singleton.mp hr, hnew] at hk
    exact h ⟨s, hs, hk⟩)

/-- `INSERT OR IGNORE`: a row whose key is taken is dropped. -/
def insertOrIgnore [DecidableEq κ] (r : Row) (t : Keyed key) : Keyed key :=
  if h : ∃ s ∈ t.rows, key s = key r then t
  else t.append [r] (List.nodup_singleton _) (by
    intro r' hr' s hs hk
    rw [List.mem_singleton.mp hr'] at hk
    exact h ⟨s, hs, hk⟩)

theorem find?_update [DecidableEq κ] {edit : Row → Row} (h : ∀ r, key (edit r) = key r) (t : Keyed key) (k : κ) :
    (t.update edit h).rows.find? (fun r => decide (key r = k)) =
      (t.rows.find? fun r => decide (key r = k)).map edit := by
  have hpred : (fun r => decide (key r = k)) ∘ edit = fun r => decide (key r = k) :=
    funext fun r => by rw [Function.comp_apply, h]
  rw [update_rows, List.find?_map, hpred]

theorem find?_insertOrIgnore [DecidableEq κ] (t : Keyed key) (r : Row) (k : κ) :
    (t.insertOrIgnore r).rows.find? (fun r => decide (key r = k)) =
      (t.rows.find? fun r => decide (key r = k)).or (if key r = k then some r else none) := by
  unfold insertOrIgnore
  split
  · next h =>
    obtain ⟨s, hs, hkey⟩ := h
    split
    · next hk =>
      have hfound : (t.rows.find? fun r => decide (key r = k)).isSome = true :=
        List.find?_isSome.mpr ⟨s, hs, decide_eq_true (hkey.trans hk)⟩
      obtain ⟨found, hfind⟩ := Option.isSome_iff_exists.mp hfound
      rw [hfind, Option.some_or]
    · rw [Option.or_none]
  · rw [append_rows, List.find?_append, List.find?_singleton]
    by_cases hk : key r = k <;> simp [hk]

/-- What a lookup finds after an upsert. -/
theorem find?_upsert [DecidableEq κ] {k : κ} {edit : Row → Row} (hedit : ∀ r, key (edit r) = key r)
    {new : Row} (hnew : key new = k) (t : Keyed key) (k' : κ) :
    (t.upsert k edit hedit new hnew).rows.find? (fun r => key r = k') =
      if k' = k then some (((t.rows.find? fun r => key r = k).map edit).getD new)
      else t.rows.find? fun r => key r = k' := by
  unfold upsert
  split
  · next hex =>
    have hpred : ((fun r => decide (key r = k')) ∘ fun r => if key r = k then edit r else r) =
        fun r => decide (key r = k') := by
      funext r
      rw [Function.comp_apply]
      split
      · rw [hedit]
      · rfl
    rw [update_rows, List.find?_map, hpred]
    split
    · next h =>
      subst h
      obtain ⟨r, hr, hkey⟩ := hex
      cases hfind : t.rows.find? (fun r => decide (key r = k')) with
      | none => exact absurd (decide_eq_true hkey) (List.find?_eq_none.mp hfind r hr)
      | some found =>
        have hfound := List.find?_some hfind
        rw [Option.map_some, Option.map_some, if_pos (of_decide_eq_true hfound), Option.getD_some]
    · next h =>
      cases hfind : t.rows.find? (fun r => decide (key r = k')) with
      | none => rfl
      | some found =>
        have hfound := List.find?_some hfind
        have hne : key found ≠ k := fun heq => h ((of_decide_eq_true hfound).symm.trans heq)
        rw [Option.map_some, if_neg hne]
  · next hnone =>
    rw [append_rows, List.find?_append]
    split
    · next h =>
      subst h
      have hmiss : t.rows.find? (fun r => decide (key r = k')) = none :=
        List.find?_eq_none.mpr fun r hr heq => hnone ⟨r, hr, of_decide_eq_true heq⟩
      rw [hmiss]
      simp [hnew]
    · next h =>
      have hmiss : [new].find? (fun r => decide (key r = k')) = none :=
        List.find?_eq_none.mpr fun r hr heq => by
          rw [List.mem_singleton.mp hr, hnew] at heq
          exact h (of_decide_eq_true heq).symm
      rw [hmiss, Option.or_none]

theorem find?_deleteWhere [DecidableEq κ] (t : Keyed key) (k k' : κ) :
    (t.deleteWhere fun r => key r = k).rows.find? (fun r => key r = k') =
      if k' = k then none else t.rows.find? fun r => key r = k' := by
  rw [deleteWhere_rows, List.find?_filter]
  split
  · next h =>
    refine List.find?_eq_none.mpr fun r _ => ?_
    simp [h]
  · next h =>
    refine congrArg (List.find? · t.rows) (funext fun r => ?_)
    by_cases hr : key r = k'
    · simp [hr, h]
    · simp [hr]

/-- At most one row is held under a key. -/
theorem filter_key [DecidableEq κ] (t : Keyed key) (k : κ) :
    t.rows.filter (fun r => key r = k) = (t.rows.find? fun r => key r = k).toList := by
  obtain ⟨rows, hdistinct⟩ := t
  induction rows with
  | nil => rfl
  | cons r rows ih =>
    rw [List.map_cons, List.nodup_cons] at hdistinct
    by_cases hr : key r = k
    · have hrest : rows.filter (fun s => key s = k) = [] := by
        refine List.filter_eq_nil_iff.mpr fun s hs hk => hdistinct.1 ?_
        rw [hr, ← of_decide_eq_true hk]
        exact List.mem_map_of_mem hs
      simp [hr, hrest]
    · simpa [hr] using ih hdistinct.2

/-- What a table holds under a key does not depend on the order of its rows. -/
theorem filter_key_of_perm [DecidableEq κ] (t : Keyed key) {rows : List Row}
    (h : List.Perm rows t.rows) (k : κ) :
    rows.filter (fun r => key r = k) = t.rows.filter fun r => key r = k := by
  have hperm := h.filter fun r => decide (key r = k)
  rw [t.filter_key k] at hperm ⊢
  cases hfind : t.rows.find? (fun r => key r = k) with
  | none =>
    rw [hfind] at hperm
    exact hperm.eq_nil
  | some r =>
    rw [hfind] at hperm
    exact List.perm_singleton.mp hperm

/-- Rows that an upsert does not touch are kept in place. -/
theorem filter_upsert [DecidableEq κ] {k : κ} {edit : Row → Row} (hedit : ∀ r, key (edit r) = key r)
    {new : Row} (hnew : key new = k) (t : Keyed key) {p : Row → Bool}
    (hp : ∀ r, key r = k → p r = false) :
    (t.upsert k edit hedit new hnew).rows.filter p = t.rows.filter p := by
  unfold upsert
  split
  · rw [update_rows, List.filter_map]
    have hpred : (p ∘ fun r => if key r = k then edit r else r) = p := by
      funext r
      rw [Function.comp_apply]
      split
      · next h => rw [hp (edit r) ((hedit r).trans h), hp r h]
      · rfl
    rw [hpred]
    refine (List.map_congr_left fun r hr => ?_).trans (List.map_id _)
    refine if_neg fun hk => ?_
    rw [List.mem_filter, hp r hk] at hr
    exact Bool.noConfusion hr.2
  · rw [append_rows, List.filter_append, List.filter_cons_of_neg (by rw [hp new hnew]; decide),
      List.filter_nil, List.append_nil]

/-- An upsert that a view of the rows does not see, where there is a row to change. -/
theorem map_upsert {Col : Type u} [DecidableEq κ] {k : κ} {edit : Row → Row}
    (hedit : ∀ r, key (edit r) = key r) {new : Row} (hnew : key new = k) (t : Keyed key)
    {view : Row → Col} (hmem : ∃ r ∈ t.rows, key r = k)
    (hview : ∀ r ∈ t.rows, key r = k → view (edit r) = view r) :
    (t.upsert k edit hedit new hnew).rows.map view = t.rows.map view := by
  rw [upsert, dif_pos hmem, update_rows, List.map_map]
  refine List.map_congr_left fun r hr => ?_
  rw [Function.comp_apply]
  split
  · next hk => exact hview r hr hk
  · rfl

theorem insertOrIgnore_of_mem [DecidableEq κ] {r : Row} {t : Keyed key}
    (h : ∃ s ∈ t.rows, key s = key r) : t.insertOrIgnore r = t := dif_pos h

theorem filter_insertOrIgnore [DecidableEq κ] (t : Keyed key) {r : Row} {p : Row → Bool}
    (hp : p r = false) : (t.insertOrIgnore r).rows.filter p = t.rows.filter p := by
  unfold insertOrIgnore
  split
  · rfl
  · rw [append_rows, List.filter_append, List.filter_cons_of_neg (by rw [hp]; decide),
      List.filter_nil, List.append_nil]

theorem keys_insertOrIgnore [DecidableEq κ] {t : Keyed key} {r : Row} {k : κ}
    (h : k ∈ t.rows.map key ∨ k = key r) : k ∈ (t.insertOrIgnore r).rows.map key := by
  unfold insertOrIgnore
  split
  · next hmem =>
    refine h.elim id fun heq => ?_
    obtain ⟨s, hs, hkey⟩ := hmem
    exact List.mem_map.mpr ⟨s, hs, hkey.trans heq.symm⟩
  · rw [append_rows, List.map_append, List.mem_append, List.map_singleton, List.mem_singleton]
    exact h

/-- The rows seen through a function that keeps their keys. -/
def image {Row' : Type u} {key' : Row' → κ} (f : Row → Row') (h : ∀ r, key' (f r) = key r)
    (t : Keyed key) : Keyed key' where
  rows := t.rows.map f
  distinct := by
    have hkey : key' ∘ f = key := funext h
    rw [List.map_map, hkey]
    exact t.distinct

section Image

variable {Row' : Type u} {key' : Row' → κ} {f : Row → Row'}

@[simp]
theorem image_rows (h : ∀ r, key' (f r) = key r) (t : Keyed key) :
    (t.image f h).rows = t.rows.map f := rfl

theorem image_deleteWhere (h : ∀ r, key' (f r) = key r) (t : Keyed key) {p : Row → Bool}
    {p' : Row' → Bool} (hp : ∀ r, p' (f r) = p r) :
    (t.deleteWhere p).image f h = (t.image f h).deleteWhere p' := by
  refine ext ?_
  rw [image_rows, deleteWhere_rows, deleteWhere_rows, image_rows, List.filter_map]
  refine congrArg (List.map f) (List.filter_congr fun r _ => ?_)
  rw [Function.comp_apply, hp]

variable [DecidableEq κ]

theorem image_exists (h : ∀ r, key' (f r) = key r) (t : Keyed key) (k : κ) :
    (∃ r ∈ (t.image f h).rows, key' r = k) ↔ ∃ r ∈ t.rows, key r = k := by
  rw [image_rows]
  simp only [List.mem_map, exists_exists_and_eq_and, h]

theorem image_upsert (h : ∀ r, key' (f r) = key r) (t : Keyed key) {k : κ} {edit : Row → Row}
    (hedit : ∀ r, key (edit r) = key r) {new : Row} (hnew : key new = k) {edit' : Row' → Row'}
    (hedit' : ∀ r, key' (edit' r) = key' r) {new' : Row'} (hnew' : key' new' = k)
    (he : ∀ r, f (edit r) = edit' (f r)) (hn : f new = new') :
    (t.upsert k edit hedit new hnew).image f h = (t.image f h).upsert k edit' hedit' new' hnew' := by
  refine ext ?_
  unfold upsert
  by_cases hmem : ∃ r ∈ t.rows, key r = k
  · rw [dif_pos hmem, dif_pos ((image_exists h t k).mpr hmem)]
    simp only [image_rows, update_rows, List.map_map]
    refine List.map_congr_left fun r _ => ?_
    simp only [Function.comp_apply, h]
    split
    · exact he r
    · rfl
  · rw [dif_neg hmem, dif_neg ((image_exists h t k).not.mpr hmem)]
    simp only [image_rows, append_rows, List.map_append, List.map_singleton, hn]

theorem image_insertOrIgnore (h : ∀ r, key' (f r) = key r) (t : Keyed key) (r : Row) :
    (t.insertOrIgnore r).image f h = (t.image f h).insertOrIgnore (f r) := by
  refine ext ?_
  unfold insertOrIgnore
  by_cases hmem : ∃ s ∈ t.rows, key s = key r
  · have hmem' : ∃ s ∈ (t.image f h).rows, key' s = key' (f r) := by
      rw [image_exists, h]
      exact hmem
    rw [dif_pos hmem, dif_pos hmem']
  · have hmem' : ¬∃ s ∈ (t.image f h).rows, key' s = key' (f r) := by
      rw [image_exists, h]
      exact hmem
    rw [dif_neg hmem, dif_neg hmem']
    simp only [image_rows, append_rows, List.map_append, List.map_singleton]

end Image

end Keyed

@[ext]
structure Numbered (number : Row → Nat) where
  rows : List Row
  last : Nat
  bounded : ∀ r ∈ rows, number r ≤ last
  increasing : (rows.map number).Pairwise (· < ·)

namespace Numbered

variable {number : Row → Nat}

def empty : Numbered number where
  rows := []
  last := 0
  bounded := by simp
  increasing := List.Pairwise.nil

theorem nodup (t : Numbered number) : (t.rows.map number).Nodup :=
  t.increasing.imp fun h => Nat.ne_of_lt h

theorem eq_of_number (t : Numbered number) {r s : Row} (hr : r ∈ t.rows) (hs : s ∈ t.rows)
    (h : number r = number s) : r = s :=
  List.inj_on_of_nodup_map t.nodup hr hs h

def insert (row : Nat → Row) (h : ∀ n, number (row n) = n) (t : Numbered number) :
    Numbered number where
  rows := t.rows ++ [row (t.last + 1)]
  last := t.last + 1
  bounded := by
    intro r hr
    rcases List.mem_append.mp hr with hr | hr
    · exact Nat.le_succ_of_le (t.bounded r hr)
    · rw [List.mem_singleton.mp hr]
      exact Nat.le_of_eq (h _)
  increasing := by
    rw [List.map_append]
    refine List.pairwise_append.mpr ⟨t.increasing, List.pairwise_singleton _ _, ?_⟩
    intro a ha b hb
    obtain ⟨r, hr, rfl⟩ := List.mem_map.mp ha
    rw [List.map_singleton, List.mem_singleton, h] at hb
    rw [hb]
    exact Nat.lt_succ_of_le (t.bounded r hr)

@[simp]
theorem insert_rows (row : Nat → Row) (h : ∀ n, number (row n) = n) (t : Numbered number) :
    (t.insert row h).rows = t.rows ++ [row (t.last + 1)] := rfl

def deleteWhere (p : Row → Bool) (t : Numbered number) : Numbered number where
  rows := t.rows.filter fun r => !p r
  last := t.last
  bounded := fun r hr => t.bounded r (List.mem_filter.mp hr).1
  increasing := t.increasing.sublist (List.Sublist.map number List.filter_sublist)

@[simp]
theorem deleteWhere_rows (p : Row → Bool) (t : Numbered number) :
    (t.deleteWhere p).rows = t.rows.filter fun r => !p r := rfl

def update (edit : Row → Row) (h : ∀ r, number (edit r) = number r) (t : Numbered number) :
    Numbered number where
  rows := t.rows.map edit
  last := t.last
  bounded := by
    intro r hr
    obtain ⟨s, hs, rfl⟩ := List.mem_map.mp hr
    rw [h]
    exact t.bounded s hs
  increasing := by
    have hnumber : number ∘ edit = number := funext h
    rw [List.map_map, hnumber]
    exact t.increasing

@[simp]
theorem update_rows (edit : Row → Row) (h : ∀ r, number (edit r) = number r)
    (t : Numbered number) : (t.update edit h).rows = t.rows.map edit := rfl

end Numbered

end RemyCC.Relational
