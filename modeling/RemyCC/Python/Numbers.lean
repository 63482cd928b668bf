import Mathlib.Data.Int.Log
import Mathlib.Data.Rat.Floor
import RemyCC.Python.Loads
import RemyCC.Rounding
import RemyCC.Text.Decimal

/-!
# Numbers read from a string

`int` and `float` of a string take the decimal digits of every script, single
underscores between digits and white space around the number. A `float` is the
nearest double, a tie going to the even significand.
-/

namespace RemyCC.Python

open Rounding Text

section Characters

/-- The zeros of the runs of ten decimal digits. -/
def digitZeros : List Nat :=
  [0x30, 0x660, 0x6f0, 0x7c0, 0x966, 0x9e6, 0xa66, 0xae6, 0xb66, 0xbe6, 0xc66, 0xce6, 0xd66, 0xde6,
    0xe50, 0xed0, 0xf20, 0x1040, 0x1090, 0x17e0, 0x1810, 0x1946, 0x19d0, 0x1a80, 0x1a90, 0x1b50,
    0x1bb0, 0x1c40, 0x1c50, 0xa620, 0xa8d0, 0xa900, 0xa9d0, 0xa9f0, 0xaa50, 0xabf0, 0xff10,
    0x104a0, 0x10d30, 0x11066, 0x110f0, 0x11136, 0x111d0, 0x112f0, 0x11450, 0x114d0, 0x11650,
    0x116c0, 0x11730, 0x118e0, 0x11950, 0x11c50, 0x11d50, 0x11da0, 0x16a60, 0x16ac0, 0x16b50,
    0x1d7ce, 0x1d7d8, 0x1d7e2, 0x1d7ec, 0x1d7f6, 0x1e140, 0x1e2f0, 0x1e950, 0x1fbf0]

def decimalDigit (c : Char) : Option Nat :=
  (digitZeros.find? fun first => first ≤ c.toNat && c.toNat < first + 10).map (c.toNat - ·)

/-- Decimal digits and white space take their ASCII form. -/
def asciiForm (c : Char) : Char :=
  match decimalDigit c with
  | some d => Nat.digitChar d
  | none => if isSpace c.toNat then ' ' else c

def numberText (text : String) : List Char :=
  let chars := (text.toList.map asciiForm).dropWhile (· = ' ')
  (chars.reverse.dropWhile (· = ' ')).reverse

def splitSign : List Char → Bool × List Char
  | '-' :: rest => (true, rest)
  | '+' :: rest => (false, rest)
  | text => (false, text)

end Characters

section Integers

/-- Digits, with single underscores between them. -/
def joinDigits : List Char → Option (List Char)
  | [] => none
  | [c] => if c.isDigit then some [c] else none
  | c :: '_' :: rest => if c.isDigit then (joinDigits rest).map (c :: ·) else none
  | c :: rest => if c.isDigit then (joinDigits rest).map (c :: ·) else none

/-- `sys.int_info.default_max_str_digits`. -/
def maxStrDigits : Nat := 4300

def readInt (text : String) : Option Int := do
  let (negative, rest) := splitSign (numberText text)
  let digits ← joinDigits rest
  if maxStrDigits < digits.length then none
  else some (signed negative (Nat.ofDigitChars 10 digits 0))

end Integers

section Floats

/-- An underscore stands between two digits. -/
def dropUnderscores (previous : Char) : List Char → Option (List Char)
  | [] => if previous = '_' then none else some []
  | c :: rest =>
    if c = '_' then if previous.isDigit then dropUnderscores c rest else none
    else if previous = '_' ∧ ¬c.isDigit then none
    else (dropUnderscores c rest).map (c :: ·)

def readPower : List Char → Option Int
  | [] => some 0
  | e :: rest =>
    let (negative, digits) := splitSign rest
    if (e = 'e' ∨ e = 'E') ∧ digits ≠ [] ∧ digits.all Char.isDigit then
      some (signed negative (Nat.ofDigitChars 10 digits 0))
    else none

def readUnsigned (text : List Char) : Option ℚ := do
  let (whole, rest) := leadingDigits text
  let (fraction, rest) := match rest with
    | '.' :: rest => leadingDigits rest
    | _ => ([], rest)
  if whole = [] ∧ fraction = [] then none
  else
    let power ← readPower rest
    some (Nat.ofDigitChars 10 (whole ++ fraction) 0 * (10 : ℚ) ^ (power - fraction.length))

/-- The double nearest to a number that is not negative; none where it is infinite. -/
def nearestDouble (q : ℚ) : Option ℚ :=
  if q = 0 then some 0
  else
    let unit : ℚ := 2 ^ max (Int.log 2 q - 52) (-1074)
    let rounded := roundHalfEven (q / unit).num.toNat (q / unit).den * unit
    if rounded < 2 ^ 1024 then some rounded else none

inductive FloatValue where
  | finite (q : ℚ)
  | nonfinite
  deriving DecidableEq, Repr

def nonfiniteNames : List String := ["inf", "infinity", "nan"]

def readFloat (text : String) : Option FloatValue := do
  let plain ← dropUnderscores ' ' (numberText text)
  let (negative, rest) := splitSign plain
  if String.ofList (rest.map Char.toLower) ∈ nonfiniteNames then some .nonfinite
  else
    let q ← readUnsigned rest
    match nearestDouble q with
    | some rounded => some (.finite (if negative then -rounded else rounded))
    | none => some .nonfinite

end Floats

example : readInt " +1_000\n" = some 1000 ∧ readInt "1__0" = none ∧ readInt "٣" = some 3 ∧
    readFloat "1.00000000000000000001" = some (.finite 1) ∧ readFloat ".5e1" = some (.finite 5) ∧
    readFloat "-iNf" = some .nonfinite ∧ readFloat "1e" = none := by decide +kernel

end RemyCC.Python
