import Mathlib.Data.List.Sort
import Mathlib.Data.List.Dedup
import Mathlib.Data.List.Infix

/-!
# Queries over lists of rows

`ORDER BY` is a stable sort by a comparison, `LIMIT` a prefix, and grouping
keeps the groups in the order in which their first rows come. `LIKE` compares
letters without regard to ASCII case.
-/

namespace RemyCC.Relational

universe u v

variable {Row : Type u} {κ : Type v}

def orderBy (cmp : Row → Row → Ordering) (rows : List Row) : List Row :=
  rows.insertionSort fun r s => (cmp r s).isLE

theorem orderBy_perm (cmp : Row → Row → Ordering) (rows : List Row) :
    List.Perm (orderBy cmp rows) rows :=
  List.perm_insertionSort _ rows

@[simp]
theorem mem_orderBy {cmp : Row → Row → Ordering} {rows : List Row} {r : Row} :
    r ∈ orderBy cmp rows ↔ r ∈ rows :=
  (orderBy_perm cmp rows).mem_iff

/-- The distinct values of a column in increasing order. -/
def sortedSet [DecidableEq κ] [Ord κ] (values : List κ) : List κ := orderBy compare values.dedup

@[simp]
theorem mem_sortedSet [DecidableEq κ] [Ord κ] {values : List κ} {k : κ} :
    k ∈ sortedSet values ↔ k ∈ values := by
  simp [sortedSet]

def addToGroup [DecidableEq κ] (k : κ) (r : Row) : List (κ × List Row) → List (κ × List Row)
  | [] => [(k, [r])]
  | g :: groups => if g.1 = k then (k, g.2 ++ [r]) :: groups else g :: addToGroup k r groups

/-- Groups in the order of their first rows, the rows of each in their own order. -/
def groupsBy [DecidableEq κ] (key : Row → κ) (rows : List Row) : List (κ × List Row) :=
  rows.foldl (fun groups r => addToGroup (key r) r groups) []

def likeChars : List Char → List Char → Bool
  | [], text => text.isEmpty
  | '%' :: pattern, text => text.tails.any (likeChars pattern)
  | '_' :: _, [] => false
  | '_' :: pattern, _ :: text => likeChars pattern text
  | _ :: _, [] => false
  | p :: pattern, c :: text => p.toLower == c.toLower && likeChars pattern text

def like (pattern text : String) : Bool := likeChars pattern.toList text.toList

example : like "%.rs" "src/LIB.RS" = true ∧ like "a_c.%" "abc.x" = true ∧
    like "a.%" "ab" = false := by decide

/-- A pattern that ends in `%` matches every text that starts as it is written. -/
theorem likeChars_lead (lead rest : List Char) :
    likeChars (lead ++ ['%']) (lead ++ rest) = true := by
  induction lead with
  | nil =>
    rw [List.nil_append, List.nil_append, likeChars]
    exact List.any_eq_true.mpr ⟨[], (List.mem_tails _ _).mpr List.nil_suffix, rfl⟩
  | cons c lead ih =>
    rw [List.cons_append, List.cons_append]
    by_cases hany : c = '%'
    · subst hany
      rw [likeChars]
      exact List.any_eq_true.mpr ⟨_, (List.mem_tails _ _).mpr (List.suffix_cons _ _), ih⟩
    · by_cases hone : c = '_'
      · subst hone
        rwa [likeChars]
      · rw [likeChars, ih, beq_self_eq_true, Bool.and_self]
        · exact hany
        · exact hone

theorem like_lead (lead rest : String) : like (lead ++ "%") (lead ++ rest) = true := by
  have hpattern : (lead ++ "%").toList = lead.toList ++ ['%'] := by simp
  rw [like, hpattern, String.toList_append, likeChars_lead]

end RemyCC.Relational
