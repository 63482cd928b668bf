import RemyCC.Text.Decimal

/-!
# The text of a floating-point number

A finite number is given by the digits it is shortest written with and the
place of its decimal point, an infinite one and zero by their sign. Slices and
differences of lengths are those of the source and may fail. The places of a
double's point are far from the bounds of the machine's integers.
-/

namespace RemyCC.Python

open Text

structure DigitString where
  chars : List Char
  isDigits : IsDigits chars

/-- The number `0.d`, for the digits `d`. -/
def DigitString.fraction (d : DigitString) : ℚ :=
  Nat.ofDigitChars 10 d.chars 0 / 10 ^ d.chars.length

inductive Double where
  | nan
  | infinite (negative : Bool)
  | zero (negative : Bool)
  | finite (negative : Bool) (digits : DigitString) (decpt : ℤ)

section Format

/-- `as usize`. -/
def asUsize (n : ℤ) : Nat := (n % 2 ^ 64).toNat

def sliceTo (text : List Char) (stop : Nat) : Option (List Char) :=
  if stop ≤ text.length then some (text.take stop) else none

def sliceFrom (text : List Char) (start : Nat) : Option (List Char) :=
  if start ≤ text.length then some (text.drop start) else none

def checkedSub (a b : Nat) : Option Nat := if b ≤ a then some (a - b) else none

def zeros (count : Nat) : List Char := List.replicate count '0'

/-- `{:02}`. -/
def padTwo (n : Nat) : List Char := zeros (2 - (Nat.toDigits 10 n).length) ++ Nat.toDigits 10 n

def isExponential (decpt : ℤ) : Bool := decpt ≤ -4 || 16 < decpt

def formatBody (digits : List Char) (decpt : ℤ) (addDotZero : Bool) : Option (List Char) :=
  if isExponential decpt then do
    let mantissa ←
      if digits.length = 1 then some digits
      else do
        let lead ← sliceTo digits 1
        let rest ← sliceFrom digits 1
        some (lead ++ '.' :: rest)
    let exponent := decpt - 1
    let expSign := if exponent < 0 then '-' else '+'
    some (mantissa ++ 'e' :: expSign :: padTwo exponent.natAbs)
  else if decpt ≤ 0 then some ('0' :: '.' :: (zeros (asUsize (-decpt)) ++ digits))
  else if digits.length ≤ asUsize decpt then do
    let missing ← checkedSub (asUsize decpt) digits.length
    let padded := digits ++ zeros missing
    some (if addDotZero then padded ++ ['.', '0'] else padded)
  else do
    let whole ← sliceTo digits (asUsize decpt)
    let rest ← sliceFrom digits (asUsize decpt)
    some (whole ++ '.' :: rest)

def signText (negative : Bool) : List Char := if negative then ['-'] else []

def formatDouble (value : Double) (addDotZero : Bool) : Option (List Char) :=
  match value with
  | .nan => some "nan".toList
  | .infinite negative => some (signText negative ++ "inf".toList)
  | .zero negative => some (signText negative ++ '0' :: (if addDotZero then ['.', '0'] else []))
  | .finite negative digits decpt =>
    (formatBody digits.chars decpt addDotZero).map (signText negative ++ ·)

def reprFloat (value : Double) : Option (List Char) := formatDouble value true

def reprImaginary (value : Double) : Option (List Char) :=
  (formatDouble value false).map (· ++ ['j'])

example : reprImaginary (.zero false) = some "0j".toList := rfl

end Format

section Layouts

variable (negative : Bool) (digits : List Char) (decpt : ℤ)

def exponentOf : Exponent := ⟨decide (decpt - 1 < 0), padTwo (decpt - 1).natAbs⟩

/-- The numeral that is written, for each of the four layouts. -/
def layout (addDotZero : Bool) : Numeral :=
  if isExponential decpt then
    if digits.length = 1 then ⟨negative, digits, none, some (exponentOf decpt)⟩
    else ⟨negative, digits.take 1, some (digits.drop 1), some (exponentOf decpt)⟩
  else if decpt ≤ 0 then ⟨negative, ['0'], some (zeros (-decpt).toNat ++ digits), none⟩
  else if digits.length ≤ decpt.toNat then
    ⟨negative, digits ++ zeros (decpt.toNat - digits.length),
      if addDotZero then some ['0'] else none, none⟩
  else ⟨negative, digits.take decpt.toNat, some (digits.drop decpt.toNat), none⟩

variable {negative digits decpt}

theorem asUsize_eq {n : ℤ} (h : 0 ≤ n) (hmax : n < 2 ^ 64) : asUsize n = n.toNat := by
  rw [asUsize, Int.emod_eq_of_lt h hmax]

theorem fixed_bounds (h : isExponential decpt = false) : -4 < decpt ∧ decpt ≤ 16 := by
  unfold isExponential at h
  simp only [Bool.or_eq_false_iff, decide_eq_false_iff_not] at h
  omega

theorem formatBody_layout (addDotZero : Bool) (hne : digits ≠ []) :
    (formatBody digits decpt addDotZero).map (signText negative ++ ·) =
      some (layout negative digits decpt addDotZero).text := by
  have hpos := List.length_pos_of_ne_nil hne
  unfold formatBody layout Numeral.text
  by_cases hexp : isExponential decpt = true
  · rw [if_pos hexp, if_pos hexp]
    by_cases hone : digits.length = 1
    · rw [if_pos hone, if_pos hone]
      simp [signText, Exponent.text, exponentOf]
    · rw [if_neg hone, if_neg hone]
      have hlength : 1 ≤ digits.length := hpos
      simp [signText, Exponent.text, exponentOf, sliceTo, sliceFrom, hlength]
  · have hfixed := fixed_bounds (Bool.eq_false_iff.mpr hexp)
    rw [if_neg hexp, if_neg hexp]
    by_cases hzero : decpt ≤ 0
    · rw [if_pos hzero, if_pos hzero, asUsize_eq (by omega) (by omega)]
      simp [signText]
    · rw [if_neg hzero, if_neg hzero, asUsize_eq (by omega) (by omega)]
      by_cases hlong : digits.length ≤ decpt.toNat
      · rw [if_pos hlong, if_pos hlong]
        cases addDotZero with
        | true => simp [signText, checkedSub, hlong]
        | false => simp [signText, checkedSub, hlong]
      · rw [if_neg hlong, if_neg hlong]
        have hshort : decpt.toNat ≤ digits.length := by omega
        simp [signText, sliceTo, sliceFrom, hshort]

theorem isDigit_zeros {count : Nat} {c : Char} (h : c ∈ zeros count) : c.isDigit = true := by
  rw [List.eq_of_mem_replicate h]
  decide

theorem isDigit_toDigits {n : Nat} {c : Char} (h : c ∈ Nat.toDigits 10 n) : c.isDigit = true :=
  Nat.isDigit_of_mem_toDigits (by decide) (by decide) h

theorem isDigits_append {left right : List Char} (hleft : ∀ c ∈ left, c.isDigit = true)
    (hright : IsDigits right) : IsDigits (left ++ right) := by
  refine ⟨fun h => hright.1 (List.append_eq_nil_iff.mp h).2, fun c hc => ?_⟩
  exact (List.mem_append.mp hc).elim (hleft c) (hright.2 c)

theorem padTwo_isDigits (n : Nat) : IsDigits (padTwo n) :=
  isDigits_append (fun _ => isDigit_zeros)
    ⟨Nat.toDigits_ne_nil, fun _ => isDigit_toDigits⟩

theorem padTwo_length (n : Nat) : 2 ≤ (padTwo n).length := by
  unfold padTwo zeros
  rw [List.length_append, List.length_replicate]
  omega

/-- Nothing is put before two digits or more. -/
theorem padTwo_eq {n : Nat} (h : 10 ≤ n) : padTwo n = Nat.toDigits 10 n := by
  have hlength : ¬ (Nat.toDigits 10 n).length ≤ 1 := by
    rw [Nat.length_toDigits_le_iff (by decide) (by decide)]
    omega
  unfold padTwo
  rw [Nat.sub_eq_zero_of_le (by omega)]
  rfl

theorem padTwo_value (n : Nat) : Nat.ofDigitChars 10 (padTwo n) 0 = n := by
  unfold padTwo zeros
  rw [Nat.ofDigitChars_append, Nat.ofDigitChars_replicate_zero, Nat.mul_zero,
    Nat.ofDigitChars_ten_toDigits]

theorem power_exponentOf (decpt : ℤ) : (exponentOf decpt).power = decpt - 1 := by
  unfold Exponent.power exponentOf signed
  rw [padTwo_value]
  by_cases h : decpt - 1 < 0
  · rw [if_pos (decide_eq_true h)]
    omega
  · rw [if_neg (by rw [decide_eq_true_eq]; exact h)]
    omega

theorem isDigits_take {count : Nat} (h : IsDigits digits) (hpos : 0 < count) :
    IsDigits (digits.take count) := by
  refine ⟨fun hnil => ?_, fun c hc => h.2 c (List.mem_of_mem_take hc)⟩
  rcases List.take_eq_nil_iff.mp hnil with hzero | hempty
  · exact absurd hzero (Nat.ne_of_gt hpos)
  · exact h.1 hempty

theorem isDigits_drop {count : Nat} (h : IsDigits digits) (hlt : count < digits.length) :
    IsDigits (digits.drop count) := by
  refine ⟨fun hnil => ?_, fun c hc => h.2 c (List.mem_of_mem_drop hc)⟩
  exact absurd (List.drop_eq_nil_iff.mp hnil) (by omega)

theorem layout_wellFormed (addDotZero : Bool) (h : IsDigits digits) :
    (layout negative digits decpt addDotZero).WellFormed := by
  have hpos := List.length_pos_of_ne_nil h.1
  have hzero : IsDigits ['0'] := by
    refine ⟨List.cons_ne_nil _ _, fun c hc => ?_⟩
    rw [List.mem_singleton.mp hc]
    rfl
  have hexponent : ∀ e, some (exponentOf decpt) = some e → IsDigits e.digits := by
    intro e he
    rw [← Option.some.inj he]
    exact padTwo_isDigits _
  unfold layout
  by_cases hexp : isExponential decpt = true
  · rw [if_pos hexp]
    by_cases hone : digits.length = 1
    · rw [if_pos hone]
      exact ⟨h, by simp, hexponent⟩
    · rw [if_neg hone]
      refine ⟨isDigits_take h (by decide), fun f hf => ?_, hexponent⟩
      rw [← Option.some.inj hf]
      exact isDigits_drop h (by omega)
  · rw [if_neg hexp]
    by_cases hzeros : decpt ≤ 0
    · rw [if_pos hzeros]
      refine ⟨hzero, fun f hf => ?_, by simp⟩
      rw [← Option.some.inj hf]
      exact isDigits_append (fun _ => isDigit_zeros) h
    · rw [if_neg hzeros]
      by_cases hlong : digits.length ≤ decpt.toNat
      · rw [if_pos hlong]
        refine ⟨?_, fun f hf => ?_, by simp⟩
        · refine ⟨List.append_ne_nil_of_left_ne_nil h.1 _, fun c hc => ?_⟩
          exact (List.mem_append.mp hc).elim (h.2 c) isDigit_zeros
        · cases addDotZero with
          | true => rw [← Option.some.inj hf]; exact hzero
          | false => cases hf
      · rw [if_neg hlong]
        refine ⟨isDigits_take h (by omega), fun f hf => ?_, by simp⟩
        rw [← Option.some.inj hf]
        exact isDigits_drop h (by omega)

end Layouts

section Values

variable {negative : Bool} {digits : List Char} {decpt : ℤ}

def units (digits : List Char) : Nat := Nat.ofDigitChars 10 digits 0

theorem units_zeros_append (count : Nat) : units (zeros count ++ digits) = units digits := by
  unfold units zeros
  rw [Nat.ofDigitChars_append, Nat.ofDigitChars_replicate_zero, Nat.mul_zero]

theorem units_append_zeros (count : Nat) :
    units (digits ++ zeros count) = 10 ^ count * units digits := by
  unfold units zeros
  rw [Nat.ofDigitChars_append, Nat.ofDigitChars_replicate_zero]

theorem signed_mul (a b : ℤ) : signed negative (a * b) = a * signed negative b := by
  unfold signed
  split
  · rw [mul_neg]
  · rfl

/-- Zeros behind the digits, the last of them behind the point. -/
theorem padded_value (missing behind : Nat) :
    (signed negative (units (digits ++ zeros missing ++ zeros behind)) : ℚ) *
      10 ^ ((0 : ℤ) - (behind : ℤ)) = signed negative (units digits) * 10 ^ (missing : ℤ) := by
  have hten : (10 : ℚ) ≠ 0 := by norm_num
  have hunits : ((units (digits ++ zeros missing ++ zeros behind) : Nat) : ℤ) =
      10 ^ (missing + behind) * (units digits : ℤ) := by
    rw [units_append_zeros, units_append_zeros]
    push_cast
    ring
  have hpower : (10 : ℚ) ^ (missing : ℤ) = 10 ^ (missing + behind) * 10 ^ ((0 : ℤ) - behind) := by
    rw [← zpow_natCast, ← zpow_add₀ hten]
    congr 1
    push_cast
    ring
  rw [hunits, signed_mul, hpower]
  push_cast
  ring

/-- The digits, moved to the place of the point. -/
theorem layout_value (addDotZero : Bool) (hne : digits ≠ []) :
    (layout negative digits decpt addDotZero).value =
      signed negative (units digits) * (10 : ℚ) ^ (decpt - digits.length) := by
  have hpos := List.length_pos_of_ne_nil hne
  have hten : (10 : ℚ) ≠ 0 := by norm_num
  unfold layout
  by_cases hexp : isExponential decpt = true
  · rw [if_pos hexp]
    by_cases hone : digits.length = 1
    · rw [if_pos hone]
      simp [Numeral.value, Numeral.fractionDigits, Numeral.power, power_exponentOf, units, hone]
    · rw [if_neg hone]
      have hpower : decpt - 1 - ((digits.length - 1 : Nat) : ℤ) = decpt - digits.length := by omega
      simp [Numeral.value, Numeral.fractionDigits, Numeral.power, power_exponentOf, units, hpower,
        -List.drop_one]
  · rw [if_neg hexp]
    by_cases hzeros : decpt ≤ 0
    · rw [if_pos hzeros]
      have hunits : units (['0'] ++ (zeros (-decpt).toNat ++ digits)) = units digits :=
        (units_zeros_append 1).trans (units_zeros_append _)
      have hpower : (0 : ℤ) - ((zeros (-decpt).toNat ++ digits).length : ℤ) =
          decpt - digits.length := by
        unfold zeros
        rw [List.length_append, List.length_replicate]
        omega
      unfold Numeral.value
      change (signed negative (units (['0'] ++ (zeros (-decpt).toNat ++ digits))) : ℚ) *
        10 ^ ((0 : ℤ) - ((zeros (-decpt).toNat ++ digits).length : ℤ)) = _
      rw [hunits, hpower]
    · rw [if_neg hzeros]
      by_cases hlong : digits.length ≤ decpt.toNat
      · rw [if_pos hlong]
        have hmissing : ((decpt.toNat - digits.length : Nat) : ℤ) = decpt - digits.length := by
          omega
        rw [← hmissing]
        cases addDotZero with
        | true => exact padded_value (decpt.toNat - digits.length) 1
        | false =>
          rw [← padded_value (decpt.toNat - digits.length) 0]
          rfl
      · rw [if_neg hlong]
        have hpower : (0 : ℤ) - ((digits.drop decpt.toNat).length : ℤ) =
            decpt - digits.length := by
          rw [List.length_drop]
          omega
        unfold Numeral.value
        change (signed negative (units (digits.take decpt.toNat ++ digits.drop decpt.toNat)) : ℚ) *
          10 ^ ((0 : ℤ) - ((digits.drop decpt.toNat).length : ℤ)) = _
        rw [List.take_append_drop, hpower]

end Values

/-- The text of a number reads as the number, with an exponent exactly for the outer places of
the point, digits on both sides of a point and two digits at least in an exponent. -/
theorem formatDouble_denotes (negative : Bool) (digits : DigitString) (decpt : ℤ)
    (addDotZero : Bool) : ∃ text n,
      formatDouble (.finite negative digits decpt) addDotZero = some text ∧
      readNumeral text = some n ∧
      n.value = (if negative then -1 else 1) * (digits.fraction * (10 : ℚ) ^ decpt) ∧
      (n.exponent.isSome ↔ decpt ≤ -4 ∨ 16 < decpt) ∧
      (∀ behind, n.fraction = some behind → n.whole ≠ [] ∧ behind ≠ []) ∧
      ∀ e, n.exponent = some e → 2 ≤ e.digits.length ∧
        (10 ≤ (decpt - 1).natAbs → e.digits = Nat.toDigits 10 (decpt - 1).natAbs) := by
  have hten : (10 : ℚ) ≠ 0 := by norm_num
  have hwell : (layout negative digits.chars decpt addDotZero).WellFormed :=
    layout_wellFormed addDotZero digits.isDigits
  have hexponent : (layout negative digits.chars decpt addDotZero).exponent =
      if isExponential decpt then some (exponentOf decpt) else none := by
    unfold layout
    split
    · split <;> rfl
    · split
      · rfl
      · split <;> rfl
  refine ⟨_, layout negative digits.chars decpt addDotZero,
    formatBody_layout addDotZero digits.isDigits.1, readNumeral_text hwell, ?_, ?_, ?_, ?_⟩
  · rw [layout_value addDotZero digits.isDigits.1, DigitString.fraction, zpow_sub₀ hten,
      zpow_natCast]
    cases negative with
    | true =>
      simp only [signed, units, if_true]
      push_cast
      ring
    | false =>
      simp only [signed, units, Bool.false_eq_true, if_false]
      push_cast
      ring
  · rw [hexponent]
    unfold isExponential
    split
    · next h => simpa using h
    · next h => simpa using h
  · exact fun behind hbehind => ⟨hwell.whole.1, (hwell.fraction behind hbehind).1⟩
  · intro e he
    rw [hexponent] at he
    split at he
    · rw [← Option.some.inj he]
      exact ⟨padTwo_length _, padTwo_eq⟩
    · cases he

end RemyCC.Python
