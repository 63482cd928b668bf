import Mathlib.Data.List.Basic

/-!
# Regular expressions that are searched for from the left

A search takes the leftmost place at which the expression matches, there the
match that a backtracking search finds first, and goes on behind it.
-/

namespace RemyCC.Text

/-- One character of a class, as many of a class as there are but at least one,
one expression after the other. -/
inductive Pattern where
  | one (p : Char → Bool)
  | many (p : Char → Bool)
  | seq (first second : Pattern)

/-- The lengths of the runs at the start of a text, the longest one first. -/
def runLengths (p : Char → Bool) : List Char → List Nat
  | [] => []
  | c :: rest => if p c then (runLengths p rest).map (· + 1) ++ [1] else []

namespace Pattern

/-- The lengths of the matches at the start of a text in the order in which they
are tried. -/
def lengths : Pattern → List Char → List Nat
  | .one _, [] => []
  | .one p, c :: _ => if p c then [1] else []
  | .many p, text => runLengths p text
  | .seq first second, text =>
    (first.lengths text).flatMap fun n => (second.lengths (text.drop n)).map (n + ·)

/-- What two groups that stand one after the other take at the start of a text. -/
def groups (first second : Pattern) (text : List Char) : Option (Nat × Nat) :=
  ((first.lengths text).flatMap fun n => (second.lengths (text.drop n)).map fun m => (n, m)).head?

end Pattern

/-- `replace_all`: `find` gives how long the match at the start of a text is and what takes its
place. The characters of a match that are still to be passed over are counted. -/
def replaceMatches (find : List Char → Option (Nat × List Char)) : Nat → List Char → List Char
  | _, [] => []
  | skip + 1, _ :: rest => replaceMatches find skip rest
  | 0, c :: rest =>
    match find (c :: rest) with
    | some (length, new) => new ++ replaceMatches find (length - 1) rest
    | none => c :: replaceMatches find 0 rest

/-- The replacement `$1 $2`. -/
def spaceGroups (first second : Pattern) (text : List Char) : Option (Nat × List Char) :=
  (Pattern.groups first second text).map fun g =>
    (g.1 + g.2, text.take g.1 ++ ' ' :: (text.drop g.1).take g.2)

/-- A fixed replacement. -/
def replaceWith (new : List Char) (pattern : Pattern) (text : List Char) :
    Option (Nat × List Char) :=
  (pattern.lengths text).head?.map fun n => (n, new)

theorem runLengths_head {p : Char → Bool} {c : Char} (hc : p c = true) (rest : List Char) :
    (runLengths p (c :: rest)).head? = some ((rest.takeWhile p).length + 1) := by
  induction rest generalizing c with
  | nil => simp [runLengths, hc]
  | cons d rest ih =>
    rw [runLengths, if_pos hc, List.head?_append, List.head?_map]
    cases hd : p d with
    | true => rw [ih hd, List.takeWhile_cons_of_pos hd]; rfl
    | false => simp [runLengths, hd]

theorem Pattern.groups_many_of_not {p : Char → Bool} {c : Char} (hc : p c = false)
    (second : Pattern) (rest : List Char) : groups (.many p) second (c :: rest) = none := by
  simp [groups, lengths, runLengths, hc]

/-- A run gives up characters only if nothing else lets the second group match. -/
theorem Pattern.groups_many {p : Char → Bool} {c : Char} (hc : p c = true) (second : Pattern)
    (rest : List Char) : groups (.many p) second (c :: rest) =
      ((groups (.many p) second rest).map fun g => (g.1 + 1, g.2)).or
        ((second.lengths rest).head?.map fun m => (1, m)) := by
  have hshift : (runLengths p rest).flatMap (fun n =>
      (second.lengths (rest.drop n)).map fun m => (n + 1, m)) =
      ((runLengths p rest).flatMap fun n =>
        (second.lengths (rest.drop n)).map fun m => (n, m)).map fun g => (g.1 + 1, g.2) := by
    rw [List.map_flatMap]
    simp only [List.map_map, Function.comp_def]
  simp only [groups, lengths, runLengths, hc, if_true, List.flatMap_append, List.flatMap_map,
    List.flatMap_singleton, List.head?_append, List.drop_succ_cons, List.drop_zero, List.head?_map,
    hshift]

variable {find : List Char → Option (Nat × List Char)}

theorem replaceMatches_skip (skip : Nat) (text : List Char) :
    replaceMatches find skip text = replaceMatches find 0 (text.drop skip) := by
  induction skip generalizing text with
  | zero => rfl
  | succ skip ih =>
    cases text with
    | nil => rfl
    | cons c rest => exact ih rest

theorem replaceMatches_none {c : Char} {rest : List Char} (h : find (c :: rest) = none) :
    replaceMatches find 0 (c :: rest) = c :: replaceMatches find 0 rest := by
  rw [replaceMatches, h]

/-- A match that is not empty is replaced as a whole. -/
theorem replaceMatches_some {matched new rest : List Char} (hne : matched ≠ [])
    (h : find (matched ++ rest) = some (matched.length, new)) :
    replaceMatches find 0 (matched ++ rest) = new ++ replaceMatches find 0 rest := by
  cases matched with
  | nil => exact absurd rfl hne
  | cons c matched =>
    rw [List.cons_append] at h ⊢
    rw [replaceMatches, h]
    simp [replaceMatches_skip]

end RemyCC.Text
