import Mathlib.Data.List.Basic
import Mathlib.Tactic.Linarith

/-!
# Shell patterns

The matcher keeps one star to return to, the last it met. The positions it has
tried are the ones before `from`, and every earlier star is covered by the last.
-/

namespace RemyCC.Discovery

inductive Tok where
  | star
  | any
  | lit (c : Char)
  | cls (negated : Bool) (ranges : List (Char × Char))
  deriving DecidableEq, Repr

def classMatches (negated : Bool) (ranges : List (Char × Char)) (c : Char) : Bool :=
  (ranges.any fun (lo, hi) => decide (lo ≤ c) && decide (c ≤ hi)) != negated

/-- The ranges of a class, from what stands between its brackets. -/
def classRanges : List Char → List (Char × Char)
  | [] => []
  | [c, '-'] => [(c, c), ('-', '-')]
  | lo :: '-' :: hi :: rest => (lo, hi) :: classRanges rest
  | c :: rest => (c, c) :: classRanges rest

/-- The class that opens before these characters, and how many of them it takes. -/
def parseClass (chars : List Char) : Option (Tok × Nat) :=
  let negated := chars.head? == some '!'
  let body := if negated then chars.drop 1 else chars
  let bracket := if body.head? == some ']' then body.take 1 else []
  let inner := bracket ++ (body.drop bracket.length).takeWhile (· != ']')
  match body.drop inner.length with
  | [] => none
  | _ :: _ => some (.cls negated (classRanges inner),
      (if negated then 1 else 0) + inner.length + 1)

/-- The tokens of a pattern after `skip` more characters. `starred` holds right
after a star, and a run of stars is one. -/
def tokenizeFrom (starred : Bool) : Nat → List Char → List Tok
  | _, [] => []
  | skip + 1, _ :: rest => tokenizeFrom starred skip rest
  | 0, '*' :: rest =>
    if starred then tokenizeFrom true 0 rest else .star :: tokenizeFrom true 0 rest
  | 0, '?' :: rest => .any :: tokenizeFrom false 0 rest
  | 0, '[' :: rest =>
    match parseClass rest with
    | some (tok, length) => tok :: tokenizeFrom false length rest
    | none => .lit '[' :: tokenizeFrom false 0 rest
  | 0, c :: rest => .lit c :: tokenizeFrom false 0 rest

def tokenize (pattern : String) : List Tok := tokenizeFrom false 0 pattern.toList

def Tok.accepts (c : Char) : Tok → Bool
  | .star => false
  | .any => true
  | .lit d => d == c
  | .cls negated ranges => classMatches negated ranges c

/-- The loop of the matcher: the tokens after the last star stand beside the
characters that they were last tried on. -/
def matchLoop : Nat → List Tok → List Char → Option (List Tok × List Char) → Bool
  | 0, _, _, _ => false
  | _ + 1, toks, [], _ => (toks.dropWhile (· == .star)).isEmpty
  | fuel + 1, toks, c :: rest, star =>
    if toks.head? = some .star then
      matchLoop fuel toks.tail (c :: rest) (some (toks.tail, c :: rest))
    else if toks.head?.any (Tok.accepts c) then matchLoop fuel toks.tail rest star
    else star.any fun (after, tried) => matchLoop fuel after tried.tail (some (after, tried.tail))

/-- No run of the loop is longer. -/
def matchFuel (toks chars : Nat) : Nat := (toks + 1) * ((chars + 1) * (chars + 2)) + chars + 1

def fnmatchcase (name pattern : String) : Bool :=
  let toks := tokenize pattern
  let chars := name.toList
  matchLoop (matchFuel toks.length chars.length) toks chars none

/-- `normcase` is the identity, but for Windows, where it lowers the case. -/
def fnmatch (normcase : String → String) (name pattern : String) : Bool :=
  fnmatchcase (normcase name) (normcase pattern)

section Meaning

/-- What the tokens stand for: a star for any characters, the others for one. -/
inductive Matches : List Tok → List Char → Prop
  | nil : Matches [] []
  | one {tok : Tok} {c : Char} {toks : List Tok} {chars : List Char}
      (haccepts : tok.accepts c) (h : Matches toks chars) : Matches (tok :: toks) (c :: chars)
  | star {toks : List Tok} {chars rest : List Char} (hsuffix : rest <:+ chars)
      (h : Matches toks rest) : Matches (.star :: toks) chars

namespace Matches

variable {toks : List Tok} {chars : List Char}

theorem star_iff :
    Matches (.star :: toks) chars ↔ ∃ rest, rest <:+ chars ∧ Matches toks rest := by
  constructor
  · intro h
    cases h with
    | one haccepts _ => cases haccepts
    | star hsuffix h => exact ⟨_, hsuffix, h⟩
  · rintro ⟨rest, hsuffix, h⟩
    exact .star hsuffix h

/-- A star matches more of the text whenever it matches less of it. -/
theorem star_of_suffix {rest : List Char} (hsuffix : rest <:+ chars)
    (h : Matches (.star :: toks) rest) : Matches (.star :: toks) chars := by
  obtain ⟨last, hlast, h⟩ := star_iff.mp h
  exact .star (hlast.trans hsuffix) h

theorem star_cons_iff {c : Char} :
    Matches (.star :: toks) (c :: chars) ↔
      Matches toks (c :: chars) ∨ Matches (.star :: toks) chars := by
  constructor
  · intro h
    obtain ⟨rest, hsuffix, h⟩ := star_iff.mp h
    rcases List.suffix_cons_iff.mp hsuffix with rfl | hsuffix
    · exact .inl h
    · exact .inr (.star hsuffix h)
  · rintro (h | h)
    · exact .star List.suffix_rfl h
    · exact star_of_suffix (List.suffix_cons c chars) h

theorem nil_iff : Matches toks [] ↔ (toks.dropWhile (· == .star)).isEmpty := by
  induction toks with
  | nil => exact ⟨fun _ => rfl, fun _ => .nil⟩
  | cons tok toks ih =>
    cases tok with
    | star =>
      simp only [List.dropWhile, beq_self_eq_true]
      rw [star_iff, ← ih]
      simp
    | any | lit | cls =>
      constructor
      · rintro ⟨⟩
      · intro h
        cases h

theorem cons_iff {tok : Tok} {c : Char} (hstar : tok ≠ .star) :
    Matches (tok :: toks) (c :: chars) ↔ tok.accepts c ∧ Matches toks chars := by
  constructor
  · intro h
    cases h with
    | one haccepts h => exact ⟨haccepts, h⟩
    | star => exact absurd rfl hstar
  · rintro ⟨haccepts, h⟩
    exact .one haccepts h

/-- Tokens without a star take one character each. -/
theorem drop_of_append {lead : List Tok} (hstar : .star ∉ lead)
    (h : Matches (lead ++ toks) chars) :
    lead.length ≤ chars.length ∧ Matches toks (chars.drop lead.length) := by
  induction lead generalizing chars with
  | nil => exact ⟨Nat.zero_le _, h⟩
  | cons tok lead ih =>
    rw [List.mem_cons, not_or] at hstar
    cases h with
    | one haccepts h =>
      obtain ⟨hlength, h⟩ := ih hstar.2 h
      exact ⟨Nat.succ_le_succ hlength, h⟩
    | star => exact absurd rfl hstar.1

end Matches

/-- What the loop still has to try: the tokens where it stands, and those after
the last star at every later position. -/
def Remaining (toks : List Tok) (chars : List Char) : Option (List Tok × List Char) → Prop
  | none => Matches toks chars
  | some (after, tried) => Matches toks chars ∨ ∃ c rest, tried = c :: rest ∧
      Matches (.star :: after) rest

/-- Since the last star, each token has taken one character. -/
def Since (toks : List Tok) (chars : List Char) : Option (List Tok × List Char) → Prop
  | none => True
  | some (after, tried) => ∃ lead taken, after = lead ++ toks ∧ tried = taken ++ chars ∧
      lead.length = taken.length ∧ .star ∉ lead

/-- The steps left to the loop, with `n` characters and `m` tokens in all. -/
def stepsLeft (m n : Nat) (chars : List Char) : Option (List Tok × List Char) → Nat
  | none => (m + 1) * ((n + 1) * (n + 2)) + chars.length
  | some (after, tried) =>
    after.length * ((n + 1) * (n + 2)) + tried.length * (n + 2) + chars.length

/-- An earlier star has nothing to offer once the loop stands before another. -/
theorem remaining_star {toks : List Tok} {c : Char} {rest : List Char}
    {star : Option (List Tok × List Char)} (hsince : Since (.star :: toks) (c :: rest) star) :
    Remaining (.star :: toks) (c :: rest) star ↔
      Remaining toks (c :: rest) (some (toks, c :: rest)) := by
  have hhere : Remaining toks (c :: rest) (some (toks, c :: rest)) ↔
      Matches (.star :: toks) (c :: rest) := by
    rw [Matches.star_cons_iff]
    simp [Remaining]
  rw [hhere]
  cases star with
  | none => rfl
  | some last =>
    obtain ⟨after, tried⟩ := last
    obtain ⟨lead, taken, rfl, rfl, hlength, hlead⟩ := hsince
    constructor
    · rintro (h | ⟨d, later, htried, h⟩)
      · exact h
      · obtain ⟨position, hposition, h⟩ := Matches.star_iff.mp h
        obtain ⟨-, h⟩ := Matches.drop_of_append hlead h
        -- The rest of the text after `lead` is no longer than where the loop stands.
        refine Matches.star_of_suffix ?_ h
        have hsuffix : position <:+ taken ++ c :: rest :=
          htried ▸ hposition.trans (List.suffix_cons d later)
        have hshorter : position.length ≤ later.length := hposition.length_le
        have htotal : (taken ++ c :: rest).length = later.length + 1 := by
          rw [htried, List.length_cons]
        rw [List.length_append] at htotal
        have hdrop : position.drop lead.length <:+ taken ++ c :: rest :=
          (List.drop_suffix _ _).trans hsuffix
        refine List.suffix_of_suffix_length_le hdrop (List.suffix_append taken _) ?_
        rw [List.length_drop]
        omega
    · exact .inl

theorem remaining_one {tok : Tok} {toks : List Tok} {c : Char} {rest : List Char}
    {star : Option (List Tok × List Char)} (htok : tok ≠ .star) (haccepts : tok.accepts c) :
    Remaining (tok :: toks) (c :: rest) star ↔ Remaining toks rest star := by
  cases star <;> simp [Remaining, Matches.cons_iff htok, haccepts]

theorem Since.one {tok : Tok} {toks : List Tok} {c : Char} {rest : List Char}
    {star : Option (List Tok × List Char)} (htok : tok ≠ .star)
    (hsince : Since (tok :: toks) (c :: rest) star) : Since toks rest star := by
  cases star with
  | none => trivial
  | some last =>
    obtain ⟨lead, taken, hafter, htried, hlength, hlead⟩ := hsince
    refine ⟨lead ++ [tok], taken ++ [c], ?_, ?_, ?_, ?_⟩
    · rw [hafter, List.append_assoc, List.singleton_append]
    · rw [htried, List.append_assoc, List.singleton_append]
    · rw [List.length_append, List.length_append, hlength]
      rfl
    · rw [List.mem_append, List.mem_singleton]
      rintro (h | h)
      · exact hlead h
      · exact htok h.symm

/-- Where the token fails, only the last star is left. -/
theorem remaining_backtrack {toks after : List Tok} {chars tried : List Char}
    (hsince : Since toks chars (some (after, tried))) (hchars : chars ≠ [])
    (hfail : ¬Matches toks chars) :
    Remaining toks chars (some (after, tried)) ↔
      Remaining after tried.tail (some (after, tried.tail)) := by
  obtain ⟨lead, taken, -, rfl, -, -⟩ := hsince
  cases htried : taken ++ chars with
  | nil => exact absurd (List.append_eq_nil_iff.mp htried).2 hchars
  | cons d later =>
    simp only [Remaining, hfail, false_or, List.tail_cons, List.cons.injEq]
    constructor
    · rintro ⟨_, _, ⟨rfl, rfl⟩, h⟩
      cases later with
      | nil =>
        obtain ⟨rest, hsuffix, h⟩ := Matches.star_iff.mp h
        rw [List.suffix_nil.mp hsuffix] at h
        exact .inl h
      | cons e later =>
        rcases Matches.star_cons_iff.mp h with h | h
        · exact .inl h
        · exact .inr ⟨e, later, rfl, h⟩
    · rintro (h | ⟨e, rest, rfl, h⟩)
      · exact ⟨d, later, ⟨rfl, rfl⟩, .star List.suffix_rfl h⟩
      · exact ⟨d, e :: rest, ⟨rfl, rfl⟩, Matches.star_of_suffix (List.suffix_cons e rest) h⟩

/-- At the end of the text no later position has room for the tokens taken. -/
theorem remaining_nil {toks : List Tok} {star : Option (List Tok × List Char)}
    (hsince : Since toks [] star) : Remaining toks [] star ↔ Matches toks [] := by
  cases star with
  | none => rfl
  | some last =>
    obtain ⟨after, tried⟩ := last
    obtain ⟨lead, taken, rfl, rfl, hlength, hlead⟩ := hsince
    constructor
    · rintro (h | ⟨c, rest, htried, h⟩)
      · exact h
      · obtain ⟨position, hposition, h⟩ := Matches.star_iff.mp h
        have hroom := (Matches.drop_of_append hlead h).1
        have htotal := congrArg List.length htried
        simp only [List.append_nil, List.length_cons] at htotal
        have := hposition.length_le
        omega
    · exact .inl

theorem not_matches_of_fails {toks : List Tok} {c : Char} {rest : List Char}
    (hstar : toks.head? ≠ some .star) (hfail : ¬toks.head?.any (Tok.accepts c)) :
    ¬Matches toks (c :: rest) := by
  rintro (_ | ⟨htok, -⟩ | _)
  · exact hfail htok
  · exact hstar rfl

theorem stepsLeft_star {a b n length : Nat} (hlt : a < b) (hlength : length ≤ n) :
    a * ((n + 1) * (n + 2)) + length * (n + 2) < b * ((n + 1) * (n + 2)) := by
  have hrow : length * (n + 2) < (n + 1) * (n + 2) :=
    Nat.mul_lt_mul_of_pos_right (by omega) (by omega)
  calc a * ((n + 1) * (n + 2)) + length * (n + 2)
      < a * ((n + 1) * (n + 2)) + (n + 1) * (n + 2) := Nat.add_lt_add_left hrow _
    _ = (a + 1) * ((n + 1) * (n + 2)) := (Nat.succ_mul _ _).symm
    _ ≤ b * ((n + 1) * (n + 2)) := Nat.mul_le_mul_right _ hlt

/-- The runs of the loop that come to an end, with what they return. -/
inductive LoopReturns : List Tok → List Char → Option (List Tok × List Char) → Bool → Prop
  | done (toks : List Tok) (star : Option (List Tok × List Char)) :
    LoopReturns toks [] star (toks.dropWhile (· == .star)).isEmpty
  | star {toks : List Tok} {c : Char} {rest : List Char} {star : Option (List Tok × List Char)}
    {result : Bool} (h : LoopReturns toks (c :: rest) (some (toks, c :: rest)) result) :
    LoopReturns (.star :: toks) (c :: rest) star result
  | one {tok : Tok} {toks : List Tok} {c : Char} {rest : List Char}
    {star : Option (List Tok × List Char)} {result : Bool} (htok : tok ≠ .star)
    (haccepts : tok.accepts c) (h : LoopReturns toks rest star result) :
    LoopReturns (tok :: toks) (c :: rest) star result
  | back {toks after : List Tok} {c : Char} {rest tried : List Char} {result : Bool}
    (hstar : toks.head? ≠ some .star) (hfail : ¬toks.head?.any (Tok.accepts c))
    (h : LoopReturns after tried.tail (some (after, tried.tail)) result) :
    LoopReturns toks (c :: rest) (some (after, tried)) result
  | fail {toks : List Tok} {c : Char} {rest : List Char} (hstar : toks.head? ≠ some .star)
    (hfail : ¬toks.head?.any (Tok.accepts c)) : LoopReturns toks (c :: rest) none false

/-- With more fuel than steps left the loop comes to an end. -/
theorem matchLoop_returns {m n fuel : Nat} {toks : List Tok} {chars : List Char}
    {star : Option (List Tok × List Char)} (hsince : Since toks chars star)
    (htoks : toks.length ≤ m) (hchars : chars.length ≤ n)
    (hlast : ∀ after tried, star = some (after, tried) → after.length ≤ m ∧ tried.length ≤ n)
    (hfuel : stepsLeft m n chars star < fuel) :
    LoopReturns toks chars star (matchLoop fuel toks chars star) := by
  induction fuel generalizing toks chars star with
  | zero => omega
  | succ fuel ih =>
    cases chars with
    | nil => exact .done toks star
    | cons c rest =>
      rw [matchLoop]
      by_cases hstar : toks.head? = some .star
      · obtain ⟨toks, rfl⟩ := List.head?_eq_some_iff.mp hstar
        rw [if_pos hstar]
        refine .star (ih ⟨[], [], rfl, rfl, rfl, List.not_mem_nil⟩ (Nat.le_of_succ_le htoks) hchars
          ?_ ?_)
        · rintro _ _ ⟨⟩
          exact ⟨Nat.le_of_succ_le htoks, hchars⟩
        · refine Nat.lt_of_lt_of_le ?_ (Nat.le_of_lt_succ hfuel)
          cases star with
          | none =>
            have := stepsLeft_star (a := toks.length) (b := m + 1)
              (by rw [List.length_cons] at htoks; omega) hchars
            simp only [stepsLeft, List.tail_cons]
            omega
          | some last =>
            obtain ⟨lead, taken, hlead, -, -, -⟩ := hsince
            have := stepsLeft_star (a := toks.length) (b := last.1.length)
              (by rw [hlead]; simp; omega) hchars
            simp only [stepsLeft, List.tail_cons]
            omega
      · rw [if_neg hstar]
        by_cases haccepts : toks.head?.any (Tok.accepts c)
        · rw [if_pos haccepts]
          cases toks with
          | nil => cases haccepts
          | cons tok toks =>
            have htok : tok ≠ .star := fun h => hstar (by rw [h]; rfl)
            refine .one htok haccepts (ih (hsince.one htok) (Nat.le_of_succ_le htoks)
              (Nat.le_of_succ_le hchars) hlast ?_)
            cases star <;> simp only [stepsLeft, List.length_cons] at hfuel ⊢ <;> omega
        · rw [if_neg haccepts]
          cases star with
          | none => exact .fail hstar haccepts
          | some last =>
            obtain ⟨after, tried⟩ := last
            obtain ⟨hafter, htried⟩ := hlast after tried rfl
            have htail : tried.tail.length + 1 = tried.length := by
              obtain ⟨lead, taken, -, rfl, -, -⟩ := hsince
              rw [List.length_tail, List.length_append, List.length_cons]
              omega
            refine .back hstar haccepts (ih ⟨[], [], rfl, rfl, rfl, List.not_mem_nil⟩ hafter
              (by omega) ?_ ?_)
            · rintro _ _ ⟨⟩
              exact ⟨hafter, by omega⟩
            · simp only [stepsLeft, ← htail, Nat.add_mul, Nat.one_mul, List.length_cons] at hfuel ⊢
              omega

/-- The loop settles what is left to try. -/
theorem LoopReturns.iff {toks : List Tok} {chars : List Char}
    {star : Option (List Tok × List Char)} {result : Bool} (h : LoopReturns toks chars star result)
    (hsince : Since toks chars star) : result ↔ Remaining toks chars star := by
  induction h with
  | done toks star => rw [remaining_nil hsince, Matches.nil_iff]
  | star h ih =>
    rw [remaining_star hsince]
    exact ih ⟨[], [], rfl, rfl, rfl, List.not_mem_nil⟩
  | one htok haccepts h ih =>
    rw [remaining_one htok haccepts]
    exact ih (hsince.one htok)
  | back hstar hfail h ih =>
    rw [remaining_backtrack hsince (List.cons_ne_nil _ _) (not_matches_of_fails hstar hfail)]
    exact ih ⟨[], [], rfl, rfl, rfl, List.not_mem_nil⟩
  | fail hstar hfail =>
    exact iff_of_false Bool.false_ne_true (not_matches_of_fails hstar hfail)

theorem fnmatchcase_returns (name pattern : String) :
    LoopReturns (tokenize pattern) name.toList none (fnmatchcase name pattern) :=
  matchLoop_returns trivial le_rfl le_rfl (fun _ _ h => nomatch h) (Nat.lt_succ_self _)

theorem fnmatchcase_iff {name pattern : String} :
    fnmatchcase name pattern ↔ Matches (tokenize pattern) name.toList :=
  (fnmatchcase_returns name pattern).iff trivial

end Meaning

end RemyCC.Discovery
