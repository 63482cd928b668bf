import Mathlib.Data.List.Basic
import Mathlib.Data.List.Infix
import RemyCC.Text

/-!
# Erasing and replacing what a search finds

A search goes over a list from the left. Where a match begins, a `span` gives
its length, and the search goes on behind it. Squeezing leaves at most two
newlines in a row. A text that is replaced is nowhere in the result if the new
text neither holds it nor begins or ends like a part of it.
-/

namespace RemyCC.Text

section Erasing

variable {α : Type} (span : List α → Option Nat)

/-- What is left; the elements of a match that are still to be passed over are counted. -/
def eraseFrom : Nat → List α → List α
  | _, [] => []
  | skip + 1, _ :: rest => eraseFrom skip rest
  | 0, a :: rest =>
    match span (a :: rest) with
    | some n => eraseFrom (n - 1) rest
    | none => a :: eraseFrom 0 rest

def erase (list : List α) : List α := eraseFrom span 0 list

/-- No match is empty or longer than the list. -/
def Proper : Prop := ∀ list n, span list = some n → 0 < n ∧ n ≤ list.length

variable {span} {a : α} {left gone rest list : List α}

theorem eraseFrom_eq (skip : Nat) (list : List α) :
    eraseFrom span skip list = erase span (list.drop skip) := by
  induction skip generalizing list with
  | zero => rfl
  | succ skip ih =>
    cases list with
    | nil => rfl
    | cons a rest => exact ih rest

theorem erase_none (h : span (a :: rest) = none) :
    erase span (a :: rest) = a :: erase span rest := by
  rw [erase, eraseFrom, h]
  rfl

theorem erase_some (hne : gone ≠ []) (h : span (gone ++ rest) = some gone.length) :
    erase span (gone ++ rest) = erase span rest := by
  cases gone with
  | nil => exact absurd rfl hne
  | cons a gone =>
    rw [List.cons_append] at h ⊢
    rw [erase, eraseFrom, h]
    dsimp only
    rw [eraseFrom_eq, List.length_cons, Nat.add_sub_cancel, List.drop_left]

/-- The induction over a search: the list is empty, its first element is kept, or a match goes. -/
theorem erase_induction {motive : List α → Prop} (hproper : Proper span) (nil : motive [])
    (keep : ∀ a rest, span (a :: rest) = none → motive rest → motive (a :: rest))
    (drop : ∀ gone rest, gone ≠ [] → span (gone ++ rest) = some gone.length → motive rest →
      motive (gone ++ rest)) (list : List α) : motive list := by
  induction hn : list.length using Nat.strong_induction_on generalizing list with
  | _ n ih =>
    cases list with
    | nil => exact nil
    | cons a rest =>
      cases hspan : span (a :: rest) with
      | none => exact keep a rest hspan (ih rest.length (by rw [← hn]; simp) rest rfl)
      | some k =>
        obtain ⟨hpos, hlength⟩ := hproper _ _ hspan
        have htake : ((a :: rest).take k).length = k := List.length_take_of_le hlength
        have hsplit := List.take_append_drop k (a :: rest)
        have hless : ((a :: rest).drop k).length < n := by
          rw [List.length_drop, hn]
          omega
        rw [← hsplit]
        refine drop _ _ ?_ ?_ (ih _ hless _ rfl)
        · rw [Ne, ← List.length_eq_zero_iff, htake]
          omega
        · rw [hsplit, htake, hspan]

/-- Nothing goes where no match begins. -/
theorem erase_append_of_none (h : ∀ a tail, (a :: tail) <:+ left → span (a :: tail ++ rest) = none) :
    erase span (left ++ rest) = left ++ erase span rest := by
  induction left with
  | nil => rfl
  | cons a left ih =>
    have hfirst : span (a :: (left ++ rest)) = none := h a left List.suffix_rfl
    rw [List.cons_append, erase_none hfirst, List.cons_append,
      ih fun b tail htail => h b tail (htail.trans (List.suffix_cons a left))]

theorem erase_of_none (h : ∀ a tail, (a :: tail) <:+ list → span (a :: tail) = none) :
    erase span list = list := by
  have hall : erase span (list ++ []) = list ++ [] :=
    erase_append_of_none fun a tail htail => by rw [List.append_nil]; exact h a tail htail
  rwa [List.append_nil] at hall

end Erasing

section Blocks

variable {α : Type} (isNewline : α → Bool) (opening closing : List α → Option Nat)

/-- Where the nearest closing ends. -/
def nearest : List α → Option Nat
  | [] => none
  | a :: rest =>
    match closing (a :: rest) with
    | some n => some n
    | none => (nearest rest).map (· + 1)

/-- A block from an opening to the nearest closing, with the newlines on both sides. -/
def blockSpan (list : List α) : Option Nat :=
  let lead := (list.takeWhile isNewline).length
  (opening (list.drop lead)).bind fun o =>
    (nearest closing (list.drop (lead + o))).map fun n =>
      lead + o + n + ((list.drop (lead + o + n)).takeWhile isNewline).length

variable {isNewline opening closing} {list : List α} {n : Nat}

theorem nearest_le (h : Proper closing) (hn : nearest closing list = some n) :
    0 < n ∧ n ≤ list.length := by
  induction list generalizing n with
  | nil => cases hn
  | cons a rest ih =>
    rw [nearest] at hn
    split at hn
    · next hclosing =>
      cases hn
      exact h _ _ hclosing
    · obtain ⟨k, hk, rfl⟩ := Option.map_eq_some_iff.mp hn
      have hbound := ih hk
      rw [List.length_cons]
      omega

theorem blockSpan_proper (hopening : Proper opening) (hclosing : Proper closing) :
    Proper (blockSpan isNewline opening closing) := by
  intro list n h
  obtain ⟨o, ho, hrest⟩ := Option.bind_eq_some_iff.mp h
  obtain ⟨k, hk, rfl⟩ := Option.map_eq_some_iff.mp hrest
  obtain ⟨hpos, hle⟩ := hopening _ _ ho
  obtain ⟨-, hkle⟩ := nearest_le hclosing hk
  have htrail := (List.takeWhile_prefix isNewline (l := list.drop
    ((list.takeWhile isNewline).length + o + k))).length_le
  rw [List.length_drop] at hle hkle htrail
  omega

end Blocks

section Squeezing

variable {α : Type} (isNewline : α → Bool)

/-- Leave out the newlines behind two newlines; those just before the list are counted. -/
def squeezeFrom : Nat → List α → List α
  | _, [] => []
  | before, a :: rest =>
    if isNewline a then
      if before < 2 then a :: squeezeFrom (before + 1) rest else squeezeFrom before rest
    else a :: squeezeFrom 0 rest

variable {isNewline}

theorem squeezeFrom_plain {front : List α} (h : ∀ a ∈ front, isNewline a = false)
    (hne : front ≠ []) (before : Nat) (rest : List α) :
    squeezeFrom isNewline before (front ++ rest) = front ++ squeezeFrom isNewline 0 rest := by
  induction front generalizing before with
  | nil => exact absurd rfl hne
  | cons a front ih =>
    rw [List.cons_append, squeezeFrom, h a List.mem_cons_self, if_neg Bool.false_ne_true]
    cases front with
    | nil => rfl
    | cons b front =>
      rw [ih (fun c hc => h c (List.mem_cons_of_mem a hc)) (List.cons_ne_nil b front)]
      rfl

end Squeezing

section Replacing

variable {old new : List Char}

theorem replaceChars_skip (skip : Nat) (s : List Char) :
    replaceChars old new skip s = replaceChars old new 0 (s.drop skip) := by
  induction skip generalizing s with
  | zero => rfl
  | succ skip ih =>
    cases s with
    | nil => simp [replaceChars]
    | cons c rest => rw [replaceChars, ih, List.drop_succ_cons]

/-- Nothing is replaced, or the first occurrence and then what follows it. -/
theorem replaceChars_cases (hold : old ≠ []) (s : List Char) :
    (¬ old <:+: s ∧ replaceChars old new 0 s = s) ∨
      ∃ before after, s = before ++ (old ++ after) ∧ ¬ old <:+: before ∧
        replaceChars old new 0 s = before ++ (new ++ replaceChars old new 0 after) := by
  induction s with
  | nil => exact .inl ⟨fun h => hold (List.infix_nil.mp h), by simp [replaceChars]⟩
  | cons c rest ih =>
    by_cases hfirst : old.isPrefixOf (c :: rest) = true
    · obtain ⟨after, hafter⟩ := List.isPrefixOf_iff_prefix.mp hfirst
      refine .inr ⟨[], after, hafter.symm, fun h => hold (List.infix_nil.mp h), ?_⟩
      have hdrop : rest.drop (old.length - 1) = after := by
        obtain ⟨a, as, rfl⟩ := List.exists_cons_of_ne_nil hold
        obtain ⟨-, rfl⟩ := List.cons.inj hafter
        simp
      rw [replaceChars, if_pos hfirst, replaceChars_skip, hdrop, List.nil_append]
    · have hnot : ¬ old <+: c :: rest := fun h => hfirst (List.isPrefixOf_iff_prefix.mpr h)
      rcases ih with ⟨hnone, hsame⟩ | ⟨before, after, rfl, hbefore, hreplaced⟩
      · refine .inl ⟨fun h => ?_, by rw [replaceChars, if_neg hfirst, hsame]⟩
        exact (List.infix_cons_iff.mp h).elim hnot hnone
      · refine .inr ⟨c :: before, after, rfl, fun h => ?_, ?_⟩
        · refine (List.infix_cons_iff.mp h).elim (fun hpre => hnot ?_) hbefore
          exact hpre.trans (List.prefix_append (c :: before) (old ++ after))
        · rw [replaceChars, if_neg hfirst, hreplaced, List.cons_append]

theorem prefix_of_foreign {c : Char} (hc : c ∉ old) {front back : List Char}
    (h : old <+: front ++ c :: back) : old <+: front := by
  rcases List.prefix_or_prefix_of_prefix h (List.prefix_append front (c :: back)) with h' | h'
  · exact h'
  · obtain ⟨rest, rfl⟩ := h'
    cases rest with
    | nil => rw [List.append_nil]
    | cons d rest =>
      obtain ⟨more, hmore⟩ := h
      rw [List.append_assoc, List.append_cancel_left_eq, List.cons_append] at hmore
      obtain ⟨rfl, -⟩ := List.cons.inj hmore
      exact absurd (List.mem_append_right front List.mem_cons_self) hc

/-- An occurrence does not reach over a character it does not hold. -/
theorem infix_of_foreign {c : Char} (hc : c ∉ old) {front back : List Char}
    (h : old <:+: front ++ c :: back) : old <:+: front ∨ old <:+: back := by
  induction front with
  | nil =>
    rcases List.infix_cons_iff.mp h with h | h
    · exact .inl (@prefix_of_foreign _ _ hc [] back h).isInfix
    · exact .inr h
  | cons d front ih =>
    rcases List.infix_cons_iff.mp h with h | h
    · exact .inl (@prefix_of_foreign _ _ hc (d :: front) back h).isInfix
    · exact (ih h).imp_left fun h => List.infix_cons_iff.mpr (.inr h)

/-- The new text is a bracketed one, and its brackets are foreign to the old text. -/
theorem not_infix_replaceChars (hold : old ≠ []) {left right : Char} {inner : List Char}
    (hleft : left ∉ old) (hright : right ∉ old) (hinner : ¬ old <:+: inner) (s : List Char) :
    ¬ old <:+: replaceChars old (left :: (inner ++ [right])) 0 s := by
  induction hlength : s.length using Nat.strongRecOn generalizing s with
  | ind length ih =>
    rcases replaceChars_cases hold s with ⟨hnone, hsame⟩ | ⟨before, after, rfl, hbefore, hreplaced⟩
    · rwa [hsame]
    · have hpos := List.length_pos_of_ne_nil hold
      have hshorter : after.length < length := by
        simp only [List.length_append] at hlength
        omega
      rw [hreplaced]
      intro h
      rw [List.cons_append, List.append_assoc, List.singleton_append] at h
      rcases infix_of_foreign hleft h with h | h
      · exact hbefore h
      · rcases infix_of_foreign hright h with h | h
        · exact hinner h
        · exact ih after.length hshorter after rfl h

end Replacing

end RemyCC.Text
