/-! # Significant digits

Positive fractions `num / den` on decimal grids. `leadingExponent` finds the place of the first
digit, and `significant` rounds to a number of digits, a tie going to the even one.
-/
namespace Oscillator.Decimal

/-- The number of decimal digits of a natural number, one for zero. -/
def digitCount (n : Nat) : Nat :=
  if n < 10 then 1 else digitCount (n / 10) + 1

/-- The exponent `e` with `10 ^ e ≤ num / den < 10 ^ (e + 1)`. -/
def leadingExponent (num den : Nat) : Int :=
  if den ≤ num then digitCount (num / den) - 1
  else -(digitCount ((den + num - 1) / num - 1) : Int)

/-- The fraction `num / den` counted in units of `10 ^ k`. -/
def inUnits (num den : Nat) (k : Int) : Nat × Nat :=
  if 0 ≤ k then (num, den * Nat.pow 10 k.toNat) else (num * Nat.pow 10 (-k).toNat, den)

/-- Moves factors of ten from a mantissa into its exponent. -/
def stripZeros (d : Nat) (k : Int) : Nat × Int :=
  if 0 < d ∧ d % 10 = 0 then stripZeros (d / 10) (k + 1) else (d, k)
termination_by d
decreasing_by omega

/-- The nearest decimal with `n` digits, without final zeros; a tie goes to the even digit. -/
def significant (n : Nat) (num den : Nat) : Nat × Int :=
  let k := leadingExponent num den - ((n : Int) - 1)
  let (a, b) := inUnits num den k
  let below := a / b
  let twice := 2 * (a % b)
  let up := b < twice || (twice == b && below % 2 == 1)
  stripZeros (if up then below + 1 else below) k

end Oscillator.Decimal
