import Mathlib.Data.List.DropRight

/-!
# Words between blanks

Runs of blanks that are made one blank each, and the text stripped of blanks at
its ends, leave the words of the text with one blank between them.
-/

namespace RemyCC.Text

section Words

variable {blank : Char → Bool}

def words (blank : Char → Bool) (text : List Char) : List (List Char) :=
  (text.splitOnP blank).filter fun part => !part.isEmpty

/-- Every run of blanks becomes one blank, a run that has begun before the text nothing. -/
def collapse (blank : Char → Bool) : Bool → List Char → List Char
  | _, [] => []
  | inRun, c :: rest =>
    if blank c then
      if inRun then collapse blank true rest else ' ' :: collapse blank true rest
    else c :: collapse blank false rest

theorem collapse_true (text : List Char) :
    collapse blank true text = collapse blank false (text.dropWhile blank) := by
  induction text with
  | nil => rfl
  | cons c rest ih =>
    cases hc : blank c with
    | true => simpa [collapse, hc] using ih
    | false => simp [collapse, hc]

theorem words_blank {c : Char} (hc : blank c = true) (rest : List Char) :
    words blank (c :: rest) = words blank rest := by
  rw [words, List.splitOnP_cons_eq_if_modifyHead, if_pos hc, List.filter_cons_of_neg (by simp)]
  rfl

theorem words_single {c : Char} (hc : blank c = false) : words blank [c] = [[c]] := by
  simp [words, List.splitOnP_cons_eq_if_modifyHead, hc]

theorem words_before_blank {c s : Char} (hc : blank c = false) (hs : blank s = true)
    (rest : List Char) : words blank (c :: s :: rest) = [c] :: words blank rest := by
  simp [words, List.splitOnP_cons_eq_if_modifyHead, hc, hs]

theorem words_ne_nil {word text : List Char} (h : word ∈ words blank text) : word ≠ [] := by
  simpa using (List.mem_filter.mp h).2

/-- A character before another one belongs to its word. -/
theorem words_cons {c d : Char} (hc : blank c = false) (hd : blank d = false)
    (rest : List Char) : ∃ word more, words blank (d :: rest) = (d :: word) :: more ∧
      words blank (c :: d :: rest) = (c :: d :: word) :: more := by
  obtain ⟨word, more, hsplit⟩ := List.exists_cons_of_ne_nil (List.splitOnP_ne_nil blank rest)
  refine ⟨word, more.filter fun part => !part.isEmpty, ?_, ?_⟩
  · simp [words, List.splitOnP_cons_eq_if_modifyHead, hd, hsplit]
  · simp [words, List.splitOnP_cons_eq_if_modifyHead, hc, hd, hsplit]

theorem rdropWhile_cons {p : Char → Bool} (c : Char) (rest : List Char) :
    (c :: rest).rdropWhile p =
      if rest.rdropWhile p = [] ∧ p c = true then [] else c :: rest.rdropWhile p := by
  simp only [List.rdropWhile, List.reverse_cons, List.dropWhile_append, List.reverse_eq_nil_iff]
  cases hdrop : rest.reverse.dropWhile p with
  | nil => cases hc : p c <;> simp [hc]
  | cons d more => simp

theorem dropWhile_collapse_true (text : List Char) :
    (collapse blank true text).dropWhile blank = collapse blank true text := by
  induction text with
  | nil => rfl
  | cons c rest ih =>
    cases hc : blank c with
    | true => simpa [collapse, hc] using ih
    | false => simp [collapse, hc]

theorem dropWhile_collapse (hblank : blank ' ' = true) (text : List Char) :
    (collapse blank false text).dropWhile blank = collapse blank true text := by
  cases text with
  | nil => rfl
  | cons c rest =>
    cases hc : blank c with
    | true => simp [collapse, hc, hblank, dropWhile_collapse_true]
    | false => simp [collapse, hc]

theorem rdropWhile_collapse (hblank : blank ' ' = true) (text : List Char) :
    (collapse blank true text).rdropWhile blank = [' '].intercalate (words blank text) := by
  induction text with
  | nil => rfl
  | cons c rest ih =>
    cases hc : blank c with
    | true =>
      rw [words_blank hc, ← ih]
      simp [collapse, hc]
    | false =>
      have hself : collapse blank true (c :: rest) = c :: collapse blank false rest := by
        simp [collapse, hc]
      rw [hself, rdropWhile_cons, if_neg (by simp [hc])]
      cases rest with
      | nil => rw [words_single hc]; rfl
      | cons d rest =>
        cases hd : blank d with
        | true =>
          have hrest : collapse blank false (d :: rest) = ' ' :: collapse blank true (d :: rest) := by
            simp [collapse, hd]
          rw [hrest, rdropWhile_cons, ih, words_blank hd, words_before_blank hc hd]
          cases hwords : words blank rest with
          | nil => simp [hblank]
          | cons word more =>
            have hne : [' '].intercalate (word :: more) ≠ [] := by
              have hword : word ≠ [] := words_ne_nil (hwords ▸ List.mem_cons_self)
              cases more <;> simp [hword]
            rw [if_neg (by simp [hne]), List.intercalate_cons_cons]
            rfl
        | false =>
          have hrest : collapse blank false (d :: rest) = collapse blank true (d :: rest) := by
            simp [collapse, hd]
          obtain ⟨word, more, hwords, hlonger⟩ := words_cons hc hd rest
          rw [hrest, ih, hwords, hlonger]
          simp only [List.intercalate_cons_cons_left]

/-- Collapsing and stripping leave the words. -/
theorem strip_collapse (hblank : blank ' ' = true) (text : List Char) :
    ((collapse blank false text).dropWhile blank).rdropWhile blank =
      [' '].intercalate (words blank text) := by
  rw [dropWhile_collapse hblank, rdropWhile_collapse hblank]

end Words

end RemyCC.Text
