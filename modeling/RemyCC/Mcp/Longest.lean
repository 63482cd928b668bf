import RemyCC.Mcp.Ratio

/-!
# The longest block of a rectangle

The row that the scan keeps holds how far back two texts agree from each pair
of positions. Cells are visited row by row, so of the longest blocks the best
one is the first in one text and then in the other.
-/

namespace RemyCC.Mcp

section Blocks

variable (a b : List Char)

/-- The characters of a block are the same in both texts. -/
def Common (m : Block) : Prop :=
  ∀ t < m.size, ∃ c, a[m.i + t]? = some c ∧ b[m.j + t]? = some c

structure Inside (r : Rect) (m : Block) : Prop where
  left : r.alo ≤ m.i
  right : m.i + m.size ≤ r.ahi
  low : r.blo ≤ m.j
  high : m.j + m.size ≤ r.bhi

/-- A block is no better than another: shorter, or as long and not earlier. -/
def NoBetter (m best : Block) : Prop :=
  m.size < best.size ∨ m.size = best.size ∧ (best.i < m.i ∨ best.i = m.i ∧ best.j ≤ m.j)

/-- The best of the blocks that a rectangle has in common. -/
structure Longest (r : Rect) (best : Block) : Prop where
  inside : Inside r best
  common : Common a b best
  best : ∀ m, 0 < m.size → Inside r m → Common a b m → NoBetter m best

/-- A rectangle within the two texts. -/
structure Fits (r : Rect) : Prop where
  rows : r.alo ≤ r.ahi
  height : r.ahi ≤ a.length
  columns : r.blo ≤ r.bhi
  width : r.bhi ≤ b.length

end Blocks

section Suffixes

variable (a b : List Char) (r : Rect)

/-- How far back the texts agree from two positions, inside a rectangle. -/
def agreement : Nat → Nat → Nat
  | p + 1, q + 1 =>
    if r.alo ≤ p ∧ r.blo ≤ q ∧ (a[p]?).isSome ∧ a[p]? = b[q]? then agreement p q + 1 else 0
  | _, _ => 0

variable {a b r}

theorem agreement_bounds {p q : Nat} (h : 0 < agreement a b r p q) :
    r.alo + agreement a b r p q ≤ p ∧ r.blo + agreement a b r p q ≤ q := by
  induction p generalizing q with
  | zero => simp [agreement] at h
  | succ p ih =>
    cases q with
    | zero => simp [agreement] at h
    | succ q =>
      rw [agreement] at h ⊢
      split at h
      · rename_i hcell
        rw [if_pos hcell]
        rcases Nat.eq_zero_or_pos (agreement a b r p q) with hzero | hpos
        · omega
        · have hih := ih hpos
          omega
      · exact absurd h (Nat.lt_irrefl 0)

theorem agreement_row {q : Nat} : agreement a b r r.alo q = 0 := by
  by_contra h
  have hbounds := agreement_bounds (Nat.pos_of_ne_zero h)
  omega

theorem agreement_column {p : Nat} : agreement a b r p r.blo = 0 := by
  by_contra h
  have hbounds := agreement_bounds (Nat.pos_of_ne_zero h)
  omega

theorem agreement_common (p q : Nat) :
    Common a b ⟨p - agreement a b r p q, q - agreement a b r p q, agreement a b r p q⟩ := by
  induction p generalizing q with
  | zero =>
    intro t ht
    simp [agreement] at ht
  | succ p ih =>
    cases q with
    | zero =>
      intro t ht
      simp [agreement] at ht
    | succ q =>
      intro t ht
      by_cases hcell : r.alo ≤ p ∧ r.blo ≤ q ∧ (a[p]?).isSome ∧ a[p]? = b[q]?
      · have hvalue : agreement a b r (p + 1) (q + 1) = agreement a b r p q + 1 := by
          rw [agreement, if_pos hcell]
        obtain ⟨-, -, hsome, hsame⟩ := hcell
        obtain ⟨c, hc⟩ := Option.isSome_iff_exists.mp hsome
        simp only [hvalue, Nat.add_sub_add_right] at ht ⊢
        rcases Nat.lt_or_ge t (agreement a b r p q) with hlt | hge
        · exact ih q t hlt
        · have hpos : p - agreement a b r p q + t = p ∧ q - agreement a b r p q + t = q := by
            rcases Nat.eq_zero_or_pos (agreement a b r p q) with hzero | hpos
            · omega
            · have hbounds := agreement_bounds hpos
              omega
          exact ⟨c, hpos.1.symm ▸ hc, hpos.2.symm ▸ hsame ▸ hc⟩
      · have hzero : agreement a b r (p + 1) (q + 1) = 0 := by rw [agreement, if_neg hcell]
        simp only [hzero] at ht
        exact absurd ht (Nat.not_lt_zero t)

/-- No block of the rectangle that ends at two positions reaches further back. -/
theorem size_le_agreement {m : Block} (hinside : Inside r m) (hcommon : Common a b m) :
    m.size ≤ agreement a b r (m.i + m.size) (m.j + m.size) := by
  obtain ⟨i, j, size⟩ := m
  induction size with
  | zero => exact Nat.zero_le _
  | succ size ih =>
    obtain ⟨c, ha, hb⟩ := hcommon size (Nat.lt_succ_self size)
    have hih := ih ⟨hinside.left, Nat.le_of_succ_le hinside.right, hinside.low,
      Nat.le_of_succ_le hinside.high⟩ fun t ht => hcommon t (Nat.lt_succ_of_lt ht)
    have hcell : r.alo ≤ i + size ∧ r.blo ≤ j + size ∧ (a[i + size]?).isSome ∧
        a[i + size]? = b[j + size]? := by
      refine ⟨Nat.le_add_right_of_le hinside.left, Nat.le_add_right_of_le hinside.low, ?_, ?_⟩
      · rw [ha]
        rfl
      · rw [ha, hb]
    have hvalue : agreement a b r (i + size + 1) (j + size + 1) =
        agreement a b r (i + size) (j + size) + 1 := by rw [agreement, if_pos hcell]
    show size + 1 ≤ agreement a b r (i + size + 1) (j + size + 1)
    rw [hvalue]
    exact Nat.succ_le_succ hih

end Suffixes

section Cells

variable {a b : List Char} {r : Rect}

/-- Cells are visited row by row, and a block is found at the cell behind its last character. -/
def Visited (p q : Nat) (m : Block) : Prop :=
  m.i + m.size < p ∨ m.i + m.size = p ∧ m.j + m.size ≤ q

/-- The best block of those that have been visited. -/
structure BestSoFar (a b : List Char) (r : Rect) (p q : Nat) (best : Block) : Prop where
  inside : Inside r best
  common : Common a b best
  visited : best.size = 0 ∨ Visited p q best
  best : ∀ m, 0 < m.size → Inside r m → Common a b m → Visited p q m → NoBetter m best

theorem BestSoFar.start (hfits : Fits a b r) : BestSoFar a b r r.alo r.bhi ⟨r.alo, r.blo, 0⟩ where
  inside := ⟨Nat.le_refl _, hfits.rows, Nat.le_refl _, hfits.columns⟩
  common := fun t ht => absurd ht (Nat.not_lt_zero t)
  visited := Or.inl rfl
  best := by
    rintro m hpos hinside - (hlt | ⟨heq, -⟩)
    · have hleft := hinside.left
      omega
    · have hleft := hinside.left
      omega

theorem BestSoFar.nextRow {p : Nat} {best : Block} (h : BestSoFar a b r p r.bhi best) :
    BestSoFar a b r (p + 1) 0 best where
  inside := h.inside
  common := h.common
  visited := by
    rcases h.visited with hzero | hlt | ⟨heq, -⟩
    · exact Or.inl hzero
    · exact Or.inr (Or.inl (by omega))
    · exact Or.inr (Or.inl (by omega))
  best := by
    rintro m hpos hinside hcommon (hlt | ⟨-, hle⟩)
    · refine h.best m hpos hinside hcommon ?_
      rcases Nat.lt_or_ge (m.i + m.size) p with hlt' | hge
      · exact Or.inl hlt'
      · exact Or.inr ⟨by omega, hinside.high⟩
    · omega

/-- No block ends at a cell without a common character, or left of the rectangle. -/
theorem BestSoFar.skip {p q : Nat} {best : Block} {c : Char} (hc : a[p]? = some c)
    (hcell : b[q]? ≠ some c ∨ q < r.blo) (h : BestSoFar a b r (p + 1) q best) :
    BestSoFar a b r (p + 1) (q + 1) best where
  inside := h.inside
  common := h.common
  visited := h.visited.imp id (Or.imp id fun hrow => ⟨hrow.1, by omega⟩)
  best := by
    rintro m hpos hinside hcommon (hlt | ⟨hrow, hle⟩)
    · exact h.best m hpos hinside hcommon (Or.inl hlt)
    · rcases Nat.lt_or_ge q (m.j + m.size) with hlt | hge
      · obtain ⟨d, ha, hb⟩ := hcommon (m.size - 1) (by omega)
        have hi : m.i + (m.size - 1) = p := by omega
        have hj : m.j + (m.size - 1) = q := by omega
        rw [hi, hc] at ha
        rw [hj] at hb
        rcases hcell with hne | hleft
        · exact absurd (hb.trans ha.symm) hne
        · have hlow := hinside.low
          omega
      · exact h.best m hpos hinside hcommon (Or.inr ⟨hrow, hge⟩)

/-- A cell takes the best block's place only with a longer one. -/
theorem BestSoFar.cell {p q k : Nat} {best : Block} (hk : agreement a b r (p + 1) (q + 1) = k)
    (hpos : 0 < k) (hp : p < r.ahi) (hq : q < r.bhi) (h : BestSoFar a b r (p + 1) q best) :
    BestSoFar a b r (p + 1) (q + 1)
      (if best.size < k then ⟨p + 1 - k, q + 1 - k, k⟩ else best) := by
  have hbounds := agreement_bounds (hk.symm ▸ hpos)
  rw [hk] at hbounds
  have hcommon := agreement_common (a := a) (b := b) (r := r) (p + 1) (q + 1)
  rw [hk] at hcommon
  have hends : ∀ m, Inside r m → Common a b m → m.i + m.size = p + 1 → m.j + m.size = q + 1 →
      m.size ≤ k := by
    intro m hm hmcommon hrow hcolumn
    have hle := size_le_agreement hm hmcommon
    rwa [hrow, hcolumn, hk] at hle
  have hsplit : ∀ m, Visited (p + 1) (q + 1) m → Visited (p + 1) q m ∨
      m.i + m.size = p + 1 ∧ m.j + m.size = q + 1 := by
    rintro m (hlt | ⟨hrow, hle⟩)
    · exact Or.inl (Or.inl hlt)
    · rcases Nat.lt_or_ge q (m.j + m.size) with hlt | hge
      · exact Or.inr ⟨hrow, by omega⟩
      · exact Or.inl (Or.inr ⟨hrow, hge⟩)
  split
  · rename_i hlonger
    refine ⟨⟨by show r.alo ≤ p + 1 - k; omega, by show p + 1 - k + k ≤ r.ahi; omega,
      by show r.blo ≤ q + 1 - k; omega, by show q + 1 - k + k ≤ r.bhi; omega⟩, hcommon,
      Or.inr (Or.inr ⟨by show p + 1 - k + k = p + 1; omega,
        by show q + 1 - k + k ≤ q + 1; omega⟩), ?_⟩
    intro m hmpos hminside hmcommon hvisited
    rcases hsplit m hvisited with hbefore | ⟨hrow, hcolumn⟩
    · rcases h.best m hmpos hminside hmcommon hbefore with hlt | ⟨heq, -⟩
      · exact Or.inl (by show m.size < k; omega)
      · exact Or.inl (by show m.size < k; omega)
    · have hle := hends m hminside hmcommon hrow hcolumn
      rcases Nat.lt_or_ge m.size k with hlt | hge
      · exact Or.inl hlt
      · exact Or.inr ⟨by show m.size = k; omega, Or.inr ⟨by show p + 1 - k = m.i; omega,
          by show q + 1 - k ≤ m.j; omega⟩⟩
  · rename_i hnot
    have hvisited : Visited (p + 1) q best := h.visited.resolve_left (by omega)
    refine ⟨h.inside, h.common, Or.inr (hvisited.imp id fun hrow => ⟨hrow.1, by omega⟩), ?_⟩
    intro m hmpos hminside hmcommon hmvisited
    rcases hsplit m hmvisited with hbefore | ⟨hrow, hcolumn⟩
    · exact h.best m hmpos hminside hmcommon hbefore
    · have hle := hends m hminside hmcommon hrow hcolumn
      rcases Nat.lt_or_ge m.size best.size with hlt | hge
      · exact Or.inl hlt
      · refine Or.inr ⟨by omega, ?_⟩
        rcases hvisited with hlt | ⟨heq, hcol⟩
        · exact Or.inl (by omega)
        · exact Or.inr ⟨by omega, by omega⟩

end Cells

section Rows

variable {a b : List Char} {r : Rect}

/-- What a row keeps of the columns that have been visited. -/
def RowOf (a b : List Char) (r : Rect) (p q : Nat) (len : Nat → Nat) : Prop :=
  ∀ j, len j = if r.blo ≤ j ∧ j < q then agreement a b r p (j + 1) else 0

structure RowInv (a b : List Char) (r : Rect) (p q : Nat) (st : Scan) : Prop where
  len : RowOf a b r p q st.len
  best : BestSoFar a b r p q st.best

theorem mem_indices {c : Char} {j : Nat} : j ∈ indices b c ↔ b[j]? = some c := by
  simp only [indices, List.mem_filter, List.mem_range, beq_iff_eq, and_iff_right_iff_imp]
  intro h
  exact (List.getElem?_eq_some_iff.mp h).1

theorem indices_sorted (c : Char) : (indices b c).Pairwise (· < ·) :=
  List.Pairwise.filter _ List.pairwise_lt_range

/-- The sentinel is no column, so the row holds nothing for it. -/
theorem RowOf.pred {p q : Nat} {old : Nat → Nat} (hold : RowOf a b r p r.bhi old)
    (hwidth : r.bhi < 2 ^ 63) (hlow : r.blo ≤ q) (hhigh : q < r.bhi) :
    old (wrappingPred q) = agreement a b r p q := by
  rcases Nat.eq_zero_or_pos q with rfl | hpos
  · have hpred : wrappingPred 0 = 2 ^ 64 - 1 := rfl
    rw [hpred, hold, if_neg (by omega)]
    cases p <;> rfl
  · have hpred : wrappingPred q = q - 1 := if_neg (by omega)
    rw [hpred, hold]
    rcases Nat.lt_or_ge (q - 1) r.blo with hlt | hge
    · have hq : q = r.blo := by omega
      rw [if_neg (by omega), hq, agreement_column]
    · rw [if_pos ⟨hge, by omega⟩, Nat.sub_add_cancel hpos]

theorem RowInv.skip {p q : Nat} {st : Scan} {c : Char} (hc : a[p]? = some c)
    (hcell : b[q]? ≠ some c ∨ q < r.blo) (h : RowInv a b r (p + 1) q st) :
    RowInv a b r (p + 1) (q + 1) st := by
  refine ⟨fun j => ?_, h.best.skip hc hcell⟩
  rw [h.len j]
  rcases Nat.lt_trichotomy j q with hlt | rfl | hgt
  · simp only [hlt, Nat.lt_succ_of_lt hlt]
  · rw [if_neg (by omega)]
    split
    · rename_i hvisited
      have hne := hcell.resolve_right (by omega)
      rw [agreement, if_neg]
      rintro ⟨-, -, -, hsame⟩
      exact hne (hsame.symm.trans hc)
    · rfl
  · rw [if_neg (by omega), if_neg (by omega)]

theorem RowInv.skipTo {p q q' : Nat} {st : Scan} {c : Char} (hc : a[p]? = some c) (hle : q ≤ q')
    (hcells : ∀ x, q ≤ x → x < q' → b[x]? ≠ some c ∨ x < r.blo)
    (h : RowInv a b r (p + 1) q st) : RowInv a b r (p + 1) q' st := by
  induction q', hle using Nat.le_induction with
  | base => exact h
  | succ q' hle ih =>
    exact (ih fun x hx hlt => hcells x hx (by omega)).skip hc (hcells q' hle (by omega))

theorem RowInv.cell {p q : Nat} {st : Scan} {c : Char} {old : Nat → Nat} (hc : a[p]? = some c)
    (hrow : r.alo ≤ p ∧ p < r.ahi) (hcolumn : r.blo ≤ q ∧ q < r.bhi) (hwidth : r.bhi < 2 ^ 63)
    (hold : RowOf a b r p r.bhi old) (hq : b[q]? = some c) (h : RowInv a b r (p + 1) q st) :
    RowInv a b r (p + 1) (q + 1) (st.cell p old q) := by
  have hvalue : agreement a b r (p + 1) (q + 1) = old (wrappingPred q) + 1 := by
    rw [hold.pred hwidth hcolumn.1 hcolumn.2, agreement, if_pos]
    exact ⟨hrow.1, hcolumn.1, by rw [hc]; rfl, hc.trans hq.symm⟩
  refine ⟨fun j => ?_, h.best.cell hvalue (Nat.succ_pos _) hrow.2 hcolumn.2⟩
  rcases eq_or_ne j q with rfl | hne
  · rw [if_pos ⟨hcolumn.1, Nat.lt_succ_self j⟩, hvalue]
    exact Function.update_self ..
  · have hkept : (st.cell p old q).len j = st.len j := Function.update_of_ne hne ..
    rw [hkept, h.len j]
    have hiff : j < q ↔ j < q + 1 := by omega
    simp only [hiff]

/-- A row over the columns of its character from some column on. -/
theorem RowInv.scanRow {p q : Nat} {st : Scan} {c : Char} {old : Nat → Nat} (hc : a[p]? = some c)
    (hrow : r.alo ≤ p ∧ p < r.ahi) (hcolumns : r.blo ≤ r.bhi) (hwidth : r.bhi < 2 ^ 63)
    (hold : RowOf a b r p r.bhi old) {js : List Nat} (hsorted : js.Pairwise (· < ·))
    (hq : q ≤ r.bhi) (hall : ∀ j, q ≤ j → b[j]? = some c → j ∈ js) (honly : ∀ j ∈ js, q ≤ j ∧ b[j]? = some c)
    (h : RowInv a b r (p + 1) q st) :
    RowInv a b r (p + 1) r.bhi (scanRow r p old js st) := by
  induction js generalizing q st with
  | nil =>
    refine h.skipTo hc hq fun x hx _ => Or.inl fun hsame => ?_
    cases hall x hx hsame
  | cons j js ih =>
    obtain ⟨hleast, hsorted⟩ := List.pairwise_cons.mp hsorted
    obtain ⟨hqj, hj⟩ := honly j List.mem_cons_self
    have hgap : ∀ x, q ≤ x → x < j → b[x]? ≠ some c := by
      intro x hx hlt hsame
      rcases List.mem_cons.mp (hall x hx hsame) with rfl | hmem
      · exact Nat.lt_irrefl x hlt
      · have hless := hleast x hmem
        omega
    have hall' : ∀ x, j + 1 ≤ x → b[x]? = some c → x ∈ js := by
      intro x hx hsame
      rcases List.mem_cons.mp (hall x (by omega) hsame) with rfl | hmem
      · omega
      · exact hmem
    have honly' : ∀ x ∈ js, j + 1 ≤ x ∧ b[x]? = some c := fun x hx =>
      ⟨hleast x hx, (honly x (List.mem_cons_of_mem _ hx)).2⟩
    rw [Mcp.scanRow]
    split
    · rename_i hleft
      refine ih hsorted (by omega) hall' honly' (h.skipTo hc (by omega) fun x hx hlt => ?_)
      rcases Nat.lt_or_ge x j with hlt' | hge
      · exact Or.inl (hgap x hx hlt')
      · exact Or.inr (by omega)
    split
    · rename_i hright
      exact h.skipTo hc hq fun x hx hlt => Or.inl (hgap x hx (by omega))
    · rename_i hleft hright
      have hbefore := h.skipTo hc hqj fun x hx hlt => Or.inl (hgap x hx hlt)
      exact ih hsorted (by omega) hall' honly'
        (hbefore.cell hc hrow ⟨by omega, by omega⟩ hwidth hold hj)

/-- The state before a row. -/
structure ScanInv (a b : List Char) (r : Rect) (p : Nat) (st : Scan) : Prop where
  len : RowOf a b r p r.bhi st.len
  best : BestSoFar a b r p r.bhi st.best

theorem ScanInv.start (hfits : Fits a b r) :
    ScanInv a b r r.alo ⟨fun _ => 0, ⟨r.alo, r.blo, 0⟩⟩ where
  len := by
    intro j
    rw [agreement_row, ite_self]
  best := .start hfits

theorem ScanInv.nextRow {p : Nat} {st : Scan} {c : Char} (hc : a[p]? = some c)
    (hrow : r.alo ≤ p ∧ p < r.ahi) (hcolumns : r.blo ≤ r.bhi) (hwidth : r.bhi < 2 ^ 63)
    (h : ScanInv a b r p st) : ScanInv a b r (p + 1) (nextRow b r st (c, p)) := by
  have hempty : RowInv a b r (p + 1) 0 ⟨fun _ => 0, st.best⟩ :=
    ⟨fun j => by rw [if_neg (by omega)], h.best.nextRow⟩
  have hdone := hempty.scanRow hc hrow hcolumns hwidth h.len (indices_sorted c) (Nat.zero_le _)
    (fun j _ hj => mem_indices.mpr hj) fun j hj => ⟨Nat.zero_le j, mem_indices.mp hj⟩
  exact ⟨hdone.len, hdone.best⟩

theorem ScanInv.rows (hfits : Fits a b r) (hwidth : r.bhi < 2 ^ 63) {p : Nat}
    (hlow : r.alo ≤ p) (hhigh : p ≤ r.ahi) :
    ScanInv a b r p (((a.zipIdx.take p).drop r.alo).foldl (Mcp.nextRow b r)
      ⟨fun _ => 0, ⟨r.alo, r.blo, 0⟩⟩) := by
  induction p, hlow using Nat.le_induction with
  | base =>
    rw [List.drop_eq_nil_of_le (by simp)]
    exact ScanInv.start hfits
  | succ p hlow ih =>
    have hp : p < a.length := Nat.lt_of_lt_of_le hhigh hfits.height
    have hc : a[p]? = some a[p] := List.getElem?_eq_getElem hp
    have htake : a.zipIdx.take (p + 1) = a.zipIdx.take p ++ [(a[p], p)] := by
      rw [List.take_add_one, List.getElem?_zipIdx, hc]
      simp
    have hlength : r.alo ≤ (a.zipIdx.take p).length := by
      rw [List.length_take, List.length_zipIdx]
      omega
    rw [htake, List.drop_append_of_le_length hlength, List.foldl_append]
    exact (ih (Nat.le_of_succ_le hhigh)).nextRow hc ⟨hlow, hhigh⟩ hfits.columns hwidth

end Rows

/-- The block of a rectangle is as long as any, first in one text and then in the other. -/
theorem longestMatch_longest {a b : List Char} {r : Rect} (hfits : Fits a b r)
    (hwidth : b.length < 2 ^ 63) : Longest a b r (longestMatch a b r) := by
  have hbest := (ScanInv.rows hfits (Nat.lt_of_le_of_lt hfits.width hwidth) hfits.rows
    (Nat.le_refl _)).best
  refine ⟨hbest.inside, hbest.common, fun m hpos hinside hcommon => ?_⟩
  refine hbest.best m hpos hinside hcommon ?_
  rcases Nat.lt_or_ge (m.i + m.size) r.ahi with hlt | hge
  · exact Or.inl hlt
  · exact Or.inr ⟨Nat.le_antisymm hinside.right hge, hinside.high⟩

end RemyCC.Mcp
