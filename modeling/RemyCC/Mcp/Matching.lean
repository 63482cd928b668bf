import Mathlib.Algebra.GroupWithZero.Nat
import Mathlib.Algebra.Order.BigOperators.Group.List
import Mathlib.Algebra.Order.Field.Basic
import Mathlib.Tactic.Positivity
import RemyCC.Mcp.Longest

/-!
# The matching blocks

The loop explores what the recursion on the parts before and behind a block
does, in another order. In the order of the recursion the blocks come one after
the other in both texts, so that their characters are a common subsequence.
-/

namespace RemyCC.Mcp

section Recursion

variable {a b : List Char}

def LeftOf (m m' : Block) : Prop := m.i + m.size ≤ m'.i ∧ m.j + m.size ≤ m'.j

/-- The blocks that the recursion finds in a rectangle, in the order of the texts. -/
inductive Divides (a b : List Char) : Rect → List Block → Prop
  | done {r : Rect} (hzero : (longestMatch a b r).size = 0) : Divides a b r []
  | split {r : Rect} {before behind : List Block} (hpos : 0 < (longestMatch a b r).size)
      (hbefore : Divides a b (r.before (longestMatch a b r)) before)
      (hbehind : Divides a b (r.behind (longestMatch a b r)) behind) :
      Divides a b r (before ++ longestMatch a b r :: behind)

def total (blocks : List Block) : Nat := (blocks.map Block.size).sum

@[simp]
theorem total_nil : total [] = 0 := rfl

@[simp]
theorem total_cons (m : Block) (blocks : List Block) : total (m :: blocks) = m.size + total blocks := by
  simp [total]

@[simp]
theorem total_append (xs ys : List Block) : total (xs ++ ys) = total xs + total ys := by
  simp [total]

theorem total_perm {xs ys : List Block} (h : List.Perm xs ys) : total xs = total ys :=
  (h.map Block.size).sum_eq

theorem Fits.before {r : Rect} {m : Block} (h : Fits a b r) (hm : Inside r m) :
    Fits a b (r.before m) where
  rows := hm.left
  height := by
    have hright := hm.right
    have hheight := h.height
    show m.i ≤ a.length
    omega
  columns := hm.low
  width := by
    have hhigh := hm.high
    have hwidth := h.width
    show m.j ≤ b.length
    omega

theorem Fits.behind {r : Rect} {m : Block} (h : Fits a b r) (hm : Inside r m) :
    Fits a b (r.behind m) where
  rows := hm.right
  height := h.height
  columns := hm.high
  width := h.width

theorem Divides.inside (hb : b.length < 2 ^ 63) {r : Rect} {blocks : List Block}
    (h : Divides a b r blocks) (hfits : Fits a b r) :
    ∀ m ∈ blocks, 0 < m.size ∧ Inside r m ∧ Common a b m := by
  induction h with
  | done => simp
  | @split r before behind hpos hbefore hbehind ihbefore ihbehind =>
    have hlongest := longestMatch_longest hfits hb
    have hinside := hlongest.inside
    have hleft := hinside.left
    have hright := hinside.right
    have hlow := hinside.low
    have hhigh := hinside.high
    intro m hm
    rcases List.mem_append.mp hm with hm | hm
    · obtain ⟨hsize, hin, hcommon⟩ := ihbefore (hfits.before hinside) m hm
      have hinright := hin.right
      have hinhigh := hin.high
      simp only [Rect.before] at hinright hinhigh
      exact ⟨hsize, ⟨hin.left, by omega, hin.low, by omega⟩, hcommon⟩
    rcases List.mem_cons.mp hm with rfl | hm
    · exact ⟨hpos, hinside, hlongest.common⟩
    · obtain ⟨hsize, hin, hcommon⟩ := ihbehind (hfits.behind hinside) m hm
      have hinleft := hin.left
      have hinlow := hin.low
      simp only [Rect.behind] at hinleft hinlow
      exact ⟨hsize, ⟨by omega, hin.right, by omega, hin.high⟩, hcommon⟩

theorem Divides.ordered (hb : b.length < 2 ^ 63) {r : Rect} {blocks : List Block}
    (h : Divides a b r blocks) (hfits : Fits a b r) : blocks.Pairwise LeftOf := by
  induction h with
  | done => exact List.Pairwise.nil
  | @split r before behind hpos hbefore hbehind ihbefore ihbehind =>
    have hinside := (longestMatch_longest hfits hb).inside
    have hfirst := hbefore.inside hb (hfits.before hinside)
    have hlast := hbehind.inside hb (hfits.behind hinside)
    refine List.pairwise_append.mpr ⟨ihbefore (hfits.before hinside),
      List.pairwise_cons.mpr ⟨fun m hm => ?_, ihbehind (hfits.behind hinside)⟩, fun m hm m' hm' => ?_⟩
    · exact ⟨(hlast m hm).2.1.left, (hlast m hm).2.1.low⟩
    · have hright := (hfirst m hm).2.1.right
      have hhigh := (hfirst m hm).2.1.high
      simp only [Rect.before] at hright hhigh
      rcases List.mem_cons.mp hm' with rfl | hm'
      · exact ⟨hright, hhigh⟩
      · have hleft := (hlast m' hm').2.1.left
        have hlow := (hlast m' hm').2.1.low
        simp only [Rect.behind] at hleft hlow
        exact ⟨by omega, by omega⟩

def slice (text : List Char) (lo hi : Nat) : List Char := (text.take hi).drop lo

theorem slice_append {text : List Char} {lo mid hi : Nat} (hlow : lo ≤ mid) (hhigh : mid ≤ hi)
    (hlength : mid ≤ text.length) : slice text lo hi = slice text lo mid ++ slice text mid hi := by
  have htake : text.take hi = text.take mid ++ (text.take hi).drop mid := by
    conv_lhs => rw [← List.take_append_drop mid (text.take hi), List.take_take, min_eq_left hhigh]
  rw [slice, slice, slice]
  conv_lhs => rw [htake]
  exact List.drop_append_of_le_length (by rw [List.length_take]; omega)

theorem Common.slice_eq {m : Block} (h : Common a b m) :
    slice a m.i (m.i + m.size) = slice b m.j (m.j + m.size) := by
  apply List.ext_getElem?
  intro t
  simp only [slice, List.getElem?_drop, List.getElem?_take]
  rcases Nat.lt_or_ge t m.size with hlt | hge
  · obtain ⟨c, ha, hb⟩ := h t hlt
    rw [if_pos (by omega), if_pos (by omega), ha, hb]
  · rw [if_neg (by omega), if_neg (by omega)]

theorem Common.slice_length {m : Block} (h : Common a b m) :
    (slice a m.i (m.i + m.size)).length = m.size := by
  have hle : m.i + m.size ≤ a.length ∨ m.size = 0 := by
    rcases Nat.eq_zero_or_pos m.size with hzero | hpos
    · exact Or.inr hzero
    · obtain ⟨c, ha, -⟩ := h (m.size - 1) (by omega)
      have hlt := (List.getElem?_eq_some_iff.mp ha).1
      exact Or.inl (by omega)
  rw [slice, List.length_drop, List.length_take]
  omega

/-- The blocks spell out a common subsequence. -/
theorem Divides.subsequence (hb : b.length < 2 ^ 63) {r : Rect} {blocks : List Block}
    (h : Divides a b r blocks) (hfits : Fits a b r) : ∃ shared : List Char,
      shared.length = total blocks ∧ List.Sublist shared (slice a r.alo r.ahi) ∧
      List.Sublist shared (slice b r.blo r.bhi) := by
  induction h with
  | done => exact ⟨[], rfl, List.nil_sublist _, List.nil_sublist _⟩
  | @split r before behind hpos hbefore hbehind ihbefore ihbehind =>
    have hlongest := longestMatch_longest hfits hb
    have hinside := hlongest.inside
    obtain ⟨left, hleft, hlefta, hleftb⟩ := ihbefore (hfits.before hinside)
    obtain ⟨right, hright, hrighta, hrightb⟩ := ihbehind (hfits.behind hinside)
    generalize longestMatch a b r = m at *
    have hlength := hlongest.common.slice_length
    refine ⟨left ++ (slice a m.i (m.i + m.size) ++ right), ?_, ?_, ?_⟩
    · simp [hleft, hright, hlength]
    · have hheight := hfits.height
      have hins := hinside.right
      rw [slice_append hinside.left (Nat.le_of_add_right_le hins) (by omega),
        @slice_append a m.i (m.i + m.size) r.ahi (Nat.le_add_right _ _) hins (by omega)]
      exact hlefta.append ((List.Sublist.refl _).append hrighta)
    · have hwidth := hfits.width
      have hins := hinside.high
      rw [hlongest.common.slice_eq,
        slice_append hinside.low (Nat.le_of_add_right_le hins) (by omega),
        @slice_append b m.j (m.j + m.size) r.bhi (Nat.le_add_right _ _) hins (by omega)]
      exact hleftb.append ((List.Sublist.refl _).append hrightb)

/-- Something is counted as soon as the first block is not empty, and at least that much. -/
theorem Divides.size_le {r : Rect} {blocks : List Block} (h : Divides a b r blocks) :
    (longestMatch a b r).size ≤ total blocks := by
  cases h with
  | done hzero => exact Nat.le_of_eq hzero
  | split => simp only [total_append, total_cons]; omega

theorem Divides.total_eq_zero {r : Rect} {blocks : List Block} (h : Divides a b r blocks)
    (hzero : (longestMatch a b r).size = 0) : total blocks = 0 := by
  cases h with
  | done => rfl
  | split hpos => exact absurd hzero (Nat.pos_iff_ne_zero.mp hpos)

end Recursion

section Runs

variable {a b : List Char}

/-- The blocks that are counted, in the order in which they are found. -/
def counted (explored : List (Rect × Block)) : List Block :=
  (explored.map Prod.snd).filter fun m => 0 < m.size

/-- A bound on the turns that a queue still takes. -/
def turns (queue : List Rect) : Nat := (queue.map fun r => 2 * (r.ahi - r.alo) + 1).sum

/-- What a run adds to the state it begins in. -/
structure Adds (a b : List Char) (s t : Search) (found : List (Rect × Block))
    (blocks : List (List Block)) : Prop where
  explored : t.explored = s.explored ++ found
  chosen : ∀ e ∈ found, Fits a b e.1 ∧ e.2 = longestMatch a b e.1
  divides : List.Forall₂ (Divides a b) s.queue blocks
  counted : List.Perm (counted found) blocks.flatten
  matched : t.matched = s.matched + total blocks.flatten

theorem counted_cons (r : Rect) (m : Block) (found : List (Rect × Block)) :
    counted ((r, m) :: found) = (if 0 < m.size then [m] else []) ++ counted found := by
  by_cases hpos : 0 < m.size <;> simp [counted, hpos]

theorem perm_split {m : Block} {xs ys found : List Block} {others : List (List Block)}
    (h : List.Perm found (ys :: xs :: others).flatten) :
    List.Perm ([m] ++ found) ((xs ++ m :: ys) :: others).flatten := by
  have hswap : List.Perm (ys ++ (xs ++ others.flatten)) (xs ++ (ys ++ others.flatten)) := by
    rw [← List.append_assoc, ← List.append_assoc]
    exact List.perm_append_comm.append_right _
  have hmiddle : List.Perm (m :: (xs ++ (ys ++ others.flatten)))
      (xs ++ m :: (ys ++ others.flatten)) := List.perm_middle.symm
  simpa using ((h.trans hswap).cons m).trans hmiddle

/-- The turns that a queue needs end the run, and what it adds is what the recursion finds. -/
theorem run_adds (hb : b.length < 2 ^ 63) (n : Nat) (s : Search)
    (hfits : ∀ r ∈ s.queue, Fits a b r) (hturns : turns s.queue < n) :
    ∃ t found blocks, s.run a b n = some t ∧ Adds a b s t found blocks := by
  induction n generalizing s with
  | zero => exact absurd hturns (Nat.not_lt_zero _)
  | succ n ih =>
    obtain ⟨queue, explored, matched⟩ := s
    cases queue with
    | nil => exact ⟨_, [], [], rfl, ⟨by simp, by simp, .nil, .refl _, by simp⟩⟩
    | cons r rest =>
      obtain ⟨hr, hrest⟩ := List.forall_mem_cons.mp hfits
      have hinside := (longestMatch_longest hr hb).inside
      have hrun : ∀ s', Search.step a b ⟨r :: rest, explored, matched⟩ = some s' →
          Search.run a b (n + 1) ⟨r :: rest, explored, matched⟩ = Search.run a b n s' := by
        intro s' hstep
        rw [Search.run, hstep]
      rcases Nat.eq_zero_or_pos (longestMatch a b r).size with hzero | hpos
      · have hless : ¬ 0 < (longestMatch a b r).size := by omega
        have hstep : Search.step a b ⟨r :: rest, explored, matched⟩ =
            some ⟨rest, explored ++ [(r, longestMatch a b r)], matched⟩ := by
          simp only [Search.step, if_neg hless]
        obtain ⟨t, found, blocks, hdone, hadds⟩ := ih
          ⟨rest, explored ++ [(r, longestMatch a b r)], matched⟩ hrest (by
            simp only [turns, List.map_cons, List.sum_cons] at hturns ⊢
            omega)
        refine ⟨t, (r, longestMatch a b r) :: found, [] :: blocks, (hrun _ hstep).trans hdone, ?_⟩
        exact { explored := by rw [hadds.explored]; simp
                chosen := List.forall_mem_cons.mpr ⟨⟨hr, rfl⟩, hadds.chosen⟩
                divides := .cons (.done hzero) hadds.divides
                counted := by
                  rw [counted_cons, if_neg hless]
                  exact hadds.counted
                matched := by rw [hadds.matched]; simp }
      · let m := longestMatch a b r
        have hstep : Search.step a b ⟨r :: rest, explored, matched⟩ =
            some ⟨r.behind m :: r.before m :: rest, explored ++ [(r, m)], matched + m.size⟩ := by
          simp only [Search.step, if_pos hpos]
          rfl
        have hfits' : ∀ r' ∈ r.behind m :: r.before m :: rest, Fits a b r' :=
          List.forall_mem_cons.mpr ⟨hr.behind hinside,
            List.forall_mem_cons.mpr ⟨hr.before hinside, hrest⟩⟩
        obtain ⟨t, found, blocks, hdone, hadds⟩ := ih
          ⟨r.behind m :: r.before m :: rest, explored ++ [(r, m)], matched + m.size⟩ hfits' (by
            have hleft : r.alo ≤ m.i := hinside.left
            have hright : m.i + m.size ≤ r.ahi := hinside.right
            have hsize : 0 < m.size := hpos
            simp only [turns, List.map_cons, List.sum_cons, Rect.behind, Rect.before] at hturns ⊢
            omega)
        have hdivides := hadds.divides
        cases hdivides with
        | @cons _ ys _ more hbehind hmore =>
        cases hmore with
        | @cons _ xs _ others hbefore hothers =>
        refine ⟨t, (r, m) :: found, (xs ++ m :: ys) :: others, (hrun _ hstep).trans hdone, ?_⟩
        exact { explored := by rw [hadds.explored]; simp
                chosen := List.forall_mem_cons.mpr ⟨⟨hr, rfl⟩, hadds.chosen⟩
                divides := .cons (.split hpos hbefore hbehind) hothers
                counted := by
                  rw [counted_cons, if_pos hpos]
                  exact perm_split hadds.counted
                matched := by
                  rw [hadds.matched]
                  simp only [List.flatten_cons, total_append, total_cons]
                  omega }

end Runs

section Ratios

/-- What holds of the blocks that a run has found. -/
structure Matching (a b : List Char) (s : Search) : Prop where
  longest : ∀ e ∈ s.explored, Longest a b e.1 e.2
  matched : s.matched = total (counted s.explored)
  common : ∀ m ∈ counted s.explored, Common a b m
  ordered : ∃ blocks, List.Perm blocks (counted s.explored) ∧ blocks.Pairwise LeftOf

def wholeRect (a b : List Char) : Rect := ⟨0, a.length, 0, b.length⟩

theorem fits_wholeRect (a b : List Char) : Fits a b (wholeRect a b) :=
  ⟨Nat.zero_le _, Nat.le_refl _, Nat.zero_le _, Nat.le_refl _⟩

/-- The loop ends, and it counts the blocks of the recursion on the whole texts. -/
theorem run_start (a b : Chars) : ∃ s blocks,
    (Search.start a.list b.list).run a.list b.list (enoughTurns a) = some s ∧
      Matching a.list b.list s ∧ Divides a.list b.list (wholeRect a.list b.list) blocks ∧
      s.matched = total blocks := by
  have hb : b.list.length < 2 ^ 63 := b.bounded
  have hfits : ∀ r ∈ (Search.start a.list b.list).queue, Fits a.list b.list r := by
    intro r hr
    rw [List.mem_singleton.mp hr]
    exact fits_wholeRect _ _
  have hturns : turns (Search.start a.list b.list).queue < enoughTurns a := by
    simp [turns, Search.start, enoughTurns]
  obtain ⟨s, found, blocks, hrun, hadds⟩ := run_adds hb _ _ hfits hturns
  have hdivides := hadds.divides
  have hexplored : s.explored = found := hadds.explored
  cases hdivides with
  | @cons _ whole _ more hwhole hmore =>
  cases hmore
  have hperm : List.Perm (counted found) whole := by simpa using hadds.counted
  have hmatched : s.matched = total whole := by simpa [Search.start] using hadds.matched
  refine ⟨s, whole, hrun, ?_, hwhole, hmatched⟩
  exact { longest := by
            rw [hexplored]
            intro e he
            obtain ⟨hfit, hchosen⟩ := hadds.chosen e he
            exact hchosen ▸ longestMatch_longest hfit hb
          matched := by rw [hexplored, hmatched, total_perm hperm]
          common := by
            rw [hexplored]
            intro m hm
            exact (hwhole.inside hb (fits_wholeRect _ _) m (hperm.mem_iff.mp hm)).2.2
          ordered := ⟨whole, by rw [hexplored]; exact hperm.symm,
            hwhole.ordered hb (fits_wholeRect _ _)⟩ }

variable {a b : List Char} {blocks : List Block}

theorem whole_subsequence (hb : b.length < 2 ^ 63)
    (h : Divides a b (wholeRect a b) blocks) : ∃ shared : List Char,
      shared.length = total blocks ∧ List.Sublist shared a ∧ List.Sublist shared b := by
  obtain ⟨shared, hlength, ha, hb⟩ := h.subsequence hb (fits_wholeRect a b)
  refine ⟨shared, hlength, ?_, ?_⟩
  · simpa [slice, wholeRect] using ha
  · simpa [slice, wholeRect] using hb

theorem whole_equal (hb : b.length < 2 ^ 63) (h : Divides a b (wholeRect a b) blocks) :
    2 * total blocks = a.length + b.length ↔ a = b := by
  constructor
  · intro htotal
    obtain ⟨shared, hlength, hsuba, hsubb⟩ := whole_subsequence hb h
    have hlea := hsuba.length_le
    have hleb := hsubb.length_le
    rw [← hsuba.eq_of_length (by omega), hsubb.eq_of_length (by omega)]
  · rintro rfl
    have hinside : Inside (wholeRect a a) ⟨0, 0, a.length⟩ := by
      constructor <;> simp [wholeRect]
    have hcommon : Common a a ⟨0, 0, a.length⟩ := by
      intro t ht
      exact ⟨a[t], by simp [List.getElem?_eq_getElem ht]⟩
    obtain ⟨shared, hlength, hsub, -⟩ := whole_subsequence hb h
    have hle := hsub.length_le
    have hsize := h.size_le
    have hlongest := longestMatch_longest (fits_wholeRect a a) hb
    rcases Nat.eq_zero_or_pos a.length with hzero | hpos
    · omega
    · rcases hlongest.best _ hpos hinside hcommon with hlt | ⟨heq, -⟩
      · simp only at hlt
        omega
      · simp only at heq
        omega

theorem whole_disjoint (hb : b.length < 2 ^ 63) (h : Divides a b (wholeRect a b) blocks) :
    total blocks = 0 ↔ ∀ c ∈ a, c ∉ b := by
  have hlongest := longestMatch_longest (fits_wholeRect a b) hb
  constructor
  · intro hzero c hca hcb
    obtain ⟨i, hi⟩ := List.mem_iff_getElem?.mp hca
    obtain ⟨j, hj⟩ := List.mem_iff_getElem?.mp hcb
    have hilt := (List.getElem?_eq_some_iff.mp hi).1
    have hjlt := (List.getElem?_eq_some_iff.mp hj).1
    have hinside : Inside (wholeRect a b) ⟨i, j, 1⟩ := by
      constructor <;> simp only [wholeRect] <;> omega
    have hcommon : Common a b ⟨i, j, 1⟩ := by
      intro t ht
      have ht : t = 0 := by simpa using ht
      exact ⟨c, by simpa [ht] using hi, by simpa [ht] using hj⟩
    have hsize := h.size_le
    rcases hlongest.best _ (Nat.zero_lt_one) hinside hcommon with hlt | ⟨heq, -⟩
    · simp only at hlt
      omega
    · simp only at heq
      omega
  · intro hdisjoint
    refine h.total_eq_zero ?_
    by_contra hne
    obtain ⟨c, ha, hcb⟩ := hlongest.common 0 (Nat.pos_of_ne_zero hne)
    exact hdisjoint c (List.mem_of_getElem? ha) (List.mem_of_getElem? hcb)

/-- The share of the characters that the blocks hold. -/
theorem ratio_bounds {n m k : Nat} (hpos : 0 < n + m) (hle : 2 * k ≤ n + m) :
    (0 : ℚ) ≤ 2 * k / (n + m) ∧ (2 * k / (n + m) : ℚ) ≤ 1 ∧
      ((2 * k / (n + m) : ℚ) = 1 ↔ 2 * k = n + m) ∧ ((2 * k / (n + m) : ℚ) = 0 ↔ k = 0) := by
  have hden : (0 : ℚ) < n + m := by exact_mod_cast hpos
  refine ⟨by positivity, ?_, ?_, ?_⟩
  · rw [div_le_one hden]
    exact_mod_cast hle
  · rw [div_eq_one_iff_eq hden.ne']
    exact_mod_cast Iff.rfl
  · rw [div_eq_zero_iff, or_iff_left hden.ne']
    simp

end Ratios

/-- The loop ends with the blocks of Ratcliff and Obershelp. The ratio is one for
equal texts, and zero for texts without a common character, unless both are empty. -/
theorem sequenceRatio_matching (a b : Chars) : ∃ s ratio,
    (Search.start a.list b.list).run a.list b.list (enoughTurns a) = some s ∧
      Matching a.list b.list s ∧ s.matched ≤ min a.list.length b.list.length ∧
      sequenceRatio a b = some ratio ∧
      (a.list = [] ∧ b.list = [] ∨
        ratio = 2 * s.matched / (a.list.length + b.list.length)) ∧
      0 ≤ ratio ∧ ratio ≤ 1 ∧ (ratio = 1 ↔ a.list = b.list) ∧
      (ratio = 0 ↔ ¬ (a.list = [] ∧ b.list = []) ∧ ∀ c ∈ a.list, c ∉ b.list) := by
  obtain ⟨s, blocks, hrun, hmatching, hdivides, hmatched⟩ := run_start a b
  obtain ⟨shared, hlength, hsuba, hsubb⟩ := whole_subsequence b.bounded hdivides
  have hlea := hsuba.length_le
  have hleb := hsubb.length_le
  have hmin : s.matched ≤ min a.list.length b.list.length := by
    rw [hmatched, ← hlength]
    exact le_min hlea hleb
  by_cases hempty : a.list = [] ∧ b.list = []
  · refine ⟨s, 1, hrun, hmatching, hmin, if_pos hempty, Or.inl hempty, zero_le_one, le_refl 1,
      iff_of_true rfl (hempty.1.trans hempty.2.symm), ?_⟩
    exact iff_of_false one_ne_zero fun h => h.1 hempty
  · have hpos : 0 < a.list.length + b.list.length := by
      by_contra hzero
      refine hempty ⟨List.eq_nil_of_length_eq_zero ?_, List.eq_nil_of_length_eq_zero ?_⟩ <;> omega
    obtain ⟨hnonneg, hone, heq, hzero⟩ := @ratio_bounds _ _ s.matched hpos (by omega)
    refine ⟨s, _, hrun, hmatching, hmin, ?_, Or.inr rfl, hnonneg, hone, ?_, ?_⟩
    · rw [sequenceRatio, if_neg hempty, hrun]
      rfl
    · rw [heq, hmatched, whole_equal b.bounded hdivides]
    · rw [hzero, hmatched, whole_disjoint b.bounded hdivides]
      exact (and_iff_right hempty).symm

/-- Two empty texts share no character, and their ratio is one. -/
theorem empty_ratio : ¬ ∀ ratio, sequenceRatio ⟨[], by decide⟩ ⟨[], by decide⟩ = some ratio →
    (ratio = 0 ↔ ∀ c ∈ ([] : List Char), c ∉ ([] : List Char)) := by
  intro h
  have hzero := (h 1 rfl).mpr (by simp)
  exact one_ne_zero hzero

end RemyCC.Mcp
