import Mathlib.Algebra.Group.Nat.Defs
import Mathlib.Data.Rat.Defs

/-!
# Quotients in double precision

The quotient of two counts, each small enough to be a double itself, as the
nearest double, a tie going to the even significand.
-/

namespace RemyCC.Rounding

def significandBits : Nat := 53

/-- A scale at which every quotient of two such counts has all its bits. -/
def scale : Nat := 2 ^ 107

/-- The bits of `n` beyond the significand. -/
def excessBits (n : Nat) : Nat := Nat.log2 n + 1 - significandBits

def roundHalfEven (n d : Nat) : Nat :=
  let q := n / d
  let twice := 2 * (n % d)
  if d < twice ∨ (twice = d ∧ q % 2 = 1) then q + 1 else q

def quotient (a b : Nat) : Rat :=
  if b = 0 then 0
  else
    let unit := 2 ^ excessBits (a * scale / b)
    mkRat (roundHalfEven (a * scale) (b * unit) * unit) scale

example : quotient 3 4 = 3 / 4 ∧ quotient 1 3 ≠ 1 / 3 := by decide +kernel

end RemyCC.Rounding
