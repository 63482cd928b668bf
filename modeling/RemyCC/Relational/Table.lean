import Mathlib.Data.List.Pairwise
import RemyCC.Relational.Outcome

/-!
# Tables under row checks and uniqueness rules

A table carries the proof that every row passes its check and that no two
rows clash, so a statement either keeps both or reports a violation. A
statement that changes several rows is carried out row by row, each change
compared with the rows as they stand at that moment.
-/

namespace RemyCC.Relational

universe u

inductive ConstraintError where
  | check
  | unique
  | foreignKey
  deriving DecidableEq, Repr

structure Constraints (Row : Type u) where
  check : Row → Prop
  clash : Row → Row → Prop
  clash_symm : ∀ r s, clash r s → clash s r
  decideCheck : DecidablePred check
  decideClash : DecidableRel clash

attribute [instance] Constraints.decideCheck Constraints.decideClash

variable {Row : Type u}

structure Table (c : Constraints Row) where
  rows : List Row
  checked : ∀ r ∈ rows, c.check r
  distinct : rows.Pairwise fun r s => ¬ c.clash r s

namespace Table

variable {c : Constraints Row}

def empty : Table c where
  rows := []
  checked := by simp
  distinct := List.Pairwise.nil

theorem not_clash {t : Table c} {r s : Row} (hr : r ∈ t.rows) (hs : s ∈ t.rows) (h : r ≠ s) :
    ¬ c.clash r s := by
  have hsymm : Std.Symm fun r s => ¬ c.clash r s := ⟨fun _ _ hn hc => hn (c.clash_symm _ _ hc)⟩
  exact t.distinct.forall hr hs h

def insert (t : Table c) (r : Row) : Except ConstraintError (Table c) :=
  if hc : c.check r then
    if hu : ∃ s ∈ t.rows, c.clash r s then .error .unique
    else .ok {
      rows := t.rows ++ [r]
      checked := by
        intro s hs
        rcases List.mem_append.mp hs with hs | hs
        · exact t.checked s hs
        · rw [List.mem_singleton.mp hs]
          exact hc
      distinct := by
        refine List.pairwise_append.mpr ⟨t.distinct, List.pairwise_singleton _ _, ?_⟩
        intro s hs x hx hn
        rw [List.mem_singleton.mp hx] at hn
        exact hu ⟨s, hs, c.clash_symm _ _ hn⟩ }
  else .error .check

theorem insert_yields (t : Table c) (r : Row) (hc : c.check r) (hu : ∀ s ∈ t.rows, ¬ c.clash r s)
    (err : ConstraintError → Prop) :
    Yields (t.insert r) (fun t' => t'.rows = t.rows ++ [r]) err := by
  have hu' : ¬ ∃ s ∈ t.rows, c.clash r s := fun ⟨s, hs, hn⟩ => hu s hs hn
  simp [insert, hc, hu']

theorem insert_rows {t t' : Table c} {r : Row} (h : t.insert r = .ok t') :
    t'.rows = t.rows ++ [r] := by
  unfold insert at h
  split at h
  · split at h
    · cases h
    · cases h
      rfl
  · cases h

/-- The rows after a change, `edit` on the selected ones. -/
def apply (select : Row → Prop) [DecidablePred select] (edit : Row → Row) (r : Row) : Row :=
  if select r then edit r else r

def updateFrom (c : Constraints Row) (select : Row → Prop) [DecidablePred select]
    (edit : Row → Row) : List Row → List Row → Except ConstraintError (List Row)
  | done, [] => .ok done
  | done, r :: rest =>
    if select r then
      if c.check (edit r) then
        if ∃ s ∈ done ++ rest, c.clash (edit r) s then .error .unique
        else updateFrom c select edit (done ++ [edit r]) rest
      else .error .check
    else updateFrom c select edit (done ++ [r]) rest

section Update

variable {select : Row → Prop} [DecidablePred select] {edit : Row → Row}

theorem updateFrom_rows {done rest rows : List Row}
    (h : updateFrom c select edit done rest = .ok rows) :
    rows = done ++ rest.map (apply select edit) := by
  induction rest generalizing done with
  | nil => simpa [updateFrom] using h.symm
  | cons r rest ih =>
    unfold updateFrom at h
    split at h
    · split at h
      · split at h
        · cases h
        · rename_i hs _ _
          simpa [apply, hs] using ih h
      · cases h
    · rename_i hs
      simpa [apply, hs] using ih h

theorem updateFrom_valid (done : List Row) {rest rows : List Row}
    (hc : ∀ r ∈ done ++ rest, c.check r)
    (hd : (done ++ rest).Pairwise fun r s => ¬ c.clash r s)
    (h : updateFrom c select edit done rest = .ok rows) :
    (∀ r ∈ rows, c.check r) ∧ rows.Pairwise fun r s => ¬ c.clash r s := by
  induction rest generalizing done with
  | nil =>
    cases h
    simpa using And.intro hc hd
  | cons r rest ih =>
    unfold updateFrom at h
    split at h
    · split at h
      · split at h
        · cases h
        · rename_i hcheck hclash
          refine ih _ ?_ ?_ h
          · intro s hs
            simp only [List.append_assoc, List.singleton_append, List.mem_append,
              List.mem_cons] at hs
            rcases hs with hs | rfl | hs
            · exact hc s (by simp [hs])
            · exact hcheck
            · exact hc s (by simp [hs])
          · rw [List.append_assoc, List.singleton_append]
            have hsym : ∀ {x y : Row}, ¬ c.clash x y → ¬ c.clash y x :=
              fun hn hc => hn (c.clash_symm _ _ hc)
            have hd' := (List.pairwise_middle (R := fun r s => ¬ c.clash r s) hsym).mp hd
            refine (List.pairwise_middle (R := fun r s => ¬ c.clash r s) hsym).mpr ?_
            refine List.pairwise_cons.mpr ⟨?_, (List.pairwise_cons.mp hd').2⟩
            intro s hs hn
            exact hclash ⟨s, hs, hn⟩
      · cases h
    · refine ih _ ?_ ?_ h
      · simpa [List.append_assoc] using hc
      · simpa [List.append_assoc] using hd

/-- What makes a row-by-row change go through: each new row passes its check
and clashes neither with the rows still unchanged nor with those changed. -/
structure Safe (c : Constraints Row) (select : Row → Prop) [DecidablePred select]
    (edit : Row → Row) (rows : List Row) : Prop where
  check : ∀ r ∈ rows, select r → c.check (edit r)
  distinct : rows.Pairwise fun r s =>
    (select r → ¬ c.clash (edit r) s) ∧ (select s → ¬ c.clash (edit s) (apply select edit r))

theorem updateFrom_of_safe (done : List Row) {rest : List Row} (hsafe : Safe c select edit rest)
    (hdone : ∀ r ∈ rest, select r → ∀ s ∈ done, ¬ c.clash (edit r) s) :
    updateFrom c select edit done rest = .ok (done ++ rest.map (apply select edit)) := by
  induction rest generalizing done with
  | nil => simp [updateFrom]
  | cons r rest ih =>
    obtain ⟨hhead, htail⟩ := List.pairwise_cons.mp hsafe.distinct
    have hsafe' : Safe c select edit rest :=
      ⟨fun s hs => hsafe.check s (List.mem_cons_of_mem _ hs), htail⟩
    have hnext : ∀ x ∈ rest, select x → ∀ s ∈ done ++ [apply select edit r],
        ¬ c.clash (edit x) s := by
      intro x hx hsel s hs
      rcases List.mem_append.mp hs with hs | hs
      · exact hdone x (List.mem_cons_of_mem _ hx) hsel s hs
      · rw [List.mem_singleton.mp hs]
        exact (hhead x hx).2 hsel
    unfold updateFrom
    split
    · rename_i hsel
      have hclash : ¬ ∃ s ∈ done ++ rest, c.clash (edit r) s := by
        rintro ⟨s, hs, hn⟩
        rcases List.mem_append.mp hs with hs | hs
        · exact hdone r List.mem_cons_self hsel s hs hn
        · exact (hhead s hs).1 hsel hn
      rw [if_pos (hsafe.check r List.mem_cons_self hsel), if_neg hclash]
      have happly : apply select edit r = edit r := if_pos hsel
      rw [happly] at hnext
      simpa [happly] using ih _ hsafe' hnext
    · rename_i hsel
      have happly : apply select edit r = r := if_neg hsel
      rw [happly] at hnext
      simpa [happly] using ih _ hsafe' hnext

end Update

/-- `UPDATE … SET edit WHERE select`, with the number of selected rows. -/
def update (t : Table c) (select : Row → Prop) [DecidablePred select] (edit : Row → Row) :
    Except ConstraintError (Table c × Nat) :=
  match h : updateFrom c select edit [] t.rows with
  | .ok rows =>
    have hvalid := updateFrom_valid [] t.checked t.distinct h
    .ok ({ rows := rows, checked := hvalid.1, distinct := hvalid.2 }, t.rows.countP (select ·))
  | .error e => .error e

section Update

variable {select : Row → Prop} [DecidablePred select] {edit : Row → Row}

theorem update_yields (t : Table c) (hsafe : Safe c select edit t.rows)
    (err : ConstraintError → Prop) :
    Yields (t.update select edit)
      (fun r => r.1.rows = t.rows.map (apply select edit) ∧
        r.2 = t.rows.countP (select ·)) err := by
  have hok := updateFrom_of_safe [] hsafe (by simp)
  unfold update
  split
  · rename_i rows h
    rw [hok] at h
    cases h
    simp
  · rename_i e h
    rw [hok] at h
    cases h

theorem update_rows {t : Table c} {r : Table c × Nat} (h : t.update select edit = .ok r) :
    r.1.rows = t.rows.map (apply select edit) ∧ r.2 = t.rows.countP (select ·) := by
  unfold update at h
  split at h
  · rename_i rows hrows
    cases h
    exact ⟨by simpa using updateFrom_rows hrows, rfl⟩
  · cases h

/-- A change of the row with a given key, where rows with different keys can
only clash through what the change writes. -/
theorem safe_of_key {κ : Type*} (key : Row → κ) (t : Table c)
    (hkey : ∀ r s, key r = key s → c.clash r s)
    (hselect : ∀ r ∈ t.rows, ∀ s ∈ t.rows, select r → select s → key r = key s)
    (hcheck : ∀ r ∈ t.rows, select r → c.check (edit r))
    (hclash : ∀ r ∈ t.rows, select r → ∀ s ∈ t.rows, key r ≠ key s → ¬ c.clash (edit r) s) :
    Safe c select edit t.rows where
  check := hcheck
  distinct := by
    refine t.distinct.imp_of_mem ?_
    intro r s hr hs hn
    have hne : key r ≠ key s := fun h => hn (hkey r s h)
    refine ⟨fun hsel => hclash r hr hsel s hs hne, fun hsel => ?_⟩
    have hr' : ¬ select r := fun hsel' => hne (hselect r hr s hs hsel' hsel)
    rw [apply, if_neg hr']
    exact hclash s hs hsel r hr (Ne.symm hne)

end Update

end Table

end RemyCC.Relational
