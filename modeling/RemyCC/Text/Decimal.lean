import Mathlib.Algebra.Order.Field.Rat
import Mathlib.Tactic.FieldSimp
import Mathlib.Tactic.Ring

/-!
# Decimal numerals

What a text of decimal digits, with a sign, a point and an exponent, denotes.
-/

namespace RemyCC.Text

structure Exponent where
  negative : Bool
  digits : List Char
  deriving DecidableEq, Repr

structure Numeral where
  negative : Bool
  whole : List Char
  fraction : Option (List Char)
  exponent : Option Exponent
  deriving DecidableEq, Repr

def signed (negative : Bool) (magnitude : ℤ) : ℤ := if negative then -magnitude else magnitude

namespace Exponent

def power (e : Exponent) : ℤ := signed e.negative (Nat.ofDigitChars 10 e.digits 0)

def text (e : Exponent) : List Char := 'e' :: (if e.negative then '-' else '+') :: e.digits

end Exponent

namespace Numeral

def fractionDigits (n : Numeral) : List Char := n.fraction.getD []

def power (n : Numeral) : ℤ := n.exponent.elim 0 Exponent.power

def value (n : Numeral) : ℚ :=
  signed n.negative (Nat.ofDigitChars 10 (n.whole ++ n.fractionDigits) 0) *
    (10 : ℚ) ^ (n.power - n.fractionDigits.length)

def text (n : Numeral) : List Char :=
  (if n.negative then ['-'] else []) ++ n.whole ++ n.fraction.elim [] ('.' :: ·) ++
    n.exponent.elim [] Exponent.text

end Numeral

section Read

def leadingDigits (text : List Char) : List Char × List Char :=
  (text.takeWhile Char.isDigit, text.dropWhile Char.isDigit)

def numeralExponent : List Char → Option (Option Exponent)
  | [] => some none
  | 'e' :: '-' :: digits =>
    if digits ≠ [] ∧ digits.all Char.isDigit then some (some ⟨true, digits⟩) else none
  | 'e' :: '+' :: digits =>
    if digits ≠ [] ∧ digits.all Char.isDigit then some (some ⟨false, digits⟩) else none
  | _ => none

/-- A point stands between digits. -/
def numeralFraction : List Char → Option (Option (List Char) × List Char)
  | '.' :: rest =>
    if (leadingDigits rest).1 = [] then none
    else some (some (leadingDigits rest).1, (leadingDigits rest).2)
  | text => some (none, text)

def readMagnitude (negative : Bool) (text : List Char) : Option Numeral :=
  if (leadingDigits text).1 = [] then none
  else do
    let (fraction, rest) ← numeralFraction (leadingDigits text).2
    let exponent ← numeralExponent rest
    some ⟨negative, (leadingDigits text).1, fraction, exponent⟩

def readNumeral : List Char → Option Numeral
  | '-' :: rest => readMagnitude true rest
  | text => readMagnitude false text

end Read

section RoundTrip

def IsDigits (digits : List Char) : Prop := digits ≠ [] ∧ ∀ c ∈ digits, c.isDigit = true

structure Numeral.WellFormed (n : Numeral) : Prop where
  whole : IsDigits n.whole
  fraction : ∀ digits, n.fraction = some digits → IsDigits digits
  exponent : ∀ e, n.exponent = some e → IsDigits e.digits

theorem leadingDigits_append {digits rest : List Char} (h : ∀ c ∈ digits, c.isDigit = true)
    (hrest : ∀ c, rest.head? = some c → c.isDigit = false) :
    leadingDigits (digits ++ rest) = (digits, rest) := by
  have htake : rest.takeWhile Char.isDigit = [] ∧ rest.dropWhile Char.isDigit = rest := by
    cases rest with
    | nil => exact ⟨rfl, rfl⟩
    | cons c rest =>
      have hc := hrest c rfl
      constructor
      · rw [List.takeWhile_cons, if_neg (by rw [hc]; decide)]
      · rw [List.dropWhile_cons, if_neg (by rw [hc]; decide)]
  unfold leadingDigits
  rw [List.takeWhile_append_of_pos h, List.dropWhile_append_of_pos h, htake.1, htake.2,
    List.append_nil]

theorem numeralExponent_text (e : Option Exponent) (h : ∀ x, e = some x → IsDigits x.digits) :
    numeralExponent (e.elim [] Exponent.text) = some e := by
  cases e with
  | none => rfl
  | some e =>
    obtain ⟨hne, hdigits⟩ := h e rfl
    have hall : e.digits.all Char.isDigit = true := List.all_eq_true.mpr hdigits
    obtain ⟨negative, digits⟩ := e
    cases negative with
    | true => exact if_pos ⟨hne, hall⟩
    | false => exact if_pos ⟨hne, hall⟩

theorem exponent_head (e : Option Exponent) (c : Char)
    (h : (e.elim [] Exponent.text).head? = some c) : c = 'e' := by
  cases e with
  | none => cases h
  | some e => exact (Option.some.inj h).symm

theorem exponent_head_not_digit (e : Option Exponent) (c : Char)
    (h : (e.elim [] Exponent.text).head? = some c) : c.isDigit = false := by
  rw [exponent_head e c h]
  rfl

theorem numeralFraction_text (f : Option (List Char)) (e : Option Exponent)
    (h : ∀ digits, f = some digits → IsDigits digits) :
    numeralFraction (f.elim [] ('.' :: ·) ++ e.elim [] Exponent.text) =
      some (f, e.elim [] Exponent.text) := by
  cases f with
  | none =>
    cases e with
    | none => rfl
    | some e => rfl
  | some digits =>
    obtain ⟨hne, hdigits⟩ := h digits rfl
    have hread := leadingDigits_append hdigits (exponent_head_not_digit e)
    rw [Option.elim_some, List.cons_append, numeralFraction, hread, if_neg hne]

theorem readMagnitude_text {n : Numeral} (h : n.WellFormed) :
    readMagnitude n.negative
      (n.whole ++ (n.fraction.elim [] ('.' :: ·) ++ n.exponent.elim [] Exponent.text)) =
        some n := by
  have hhead : ∀ c, (n.fraction.elim [] ('.' :: ·) ++ n.exponent.elim [] Exponent.text).head? =
      some c → c.isDigit = false := by
    intro c hc
    cases hfraction : n.fraction with
    | none =>
      rw [hfraction] at hc
      exact exponent_head_not_digit n.exponent c hc
    | some digits =>
      rw [hfraction] at hc
      rw [← Option.some.inj hc]
      rfl
  have hread := leadingDigits_append h.whole.2 hhead
  unfold readMagnitude
  rw [hread, if_neg h.whole.1, numeralFraction_text _ _ h.fraction]
  simp only [Option.bind_eq_bind, Option.bind_some, numeralExponent_text _ h.exponent]

/-- A numeral is read from its text. -/
theorem readNumeral_text {n : Numeral} (h : n.WellFormed) : readNumeral n.text = some n := by
  have hmagnitude := readMagnitude_text h
  unfold Numeral.text
  rw [List.append_assoc, List.append_assoc]
  cases hsign : n.negative with
  | true =>
    rw [hsign] at hmagnitude
    exact hmagnitude
  | false =>
    rw [hsign] at hmagnitude
    cases hwhole : n.whole with
    | nil => exact absurd hwhole h.whole.1
    | cons c digits =>
      rw [hwhole] at hmagnitude
      have hc : c ≠ '-' := by
        intro hc
        have hdigit := h.whole.2 c (by rw [hwhole]; exact List.mem_cons_self)
        rw [hc] at hdigit
        exact absurd hdigit (by decide)
      rw [← hmagnitude]
      simp only [Bool.false_eq_true, if_false, List.nil_append, List.cons_append]
      unfold readNumeral
      split
      · next heq => exact absurd (List.cons.inj heq).1 hc
      · rfl

end RoundTrip

end RemyCC.Text
