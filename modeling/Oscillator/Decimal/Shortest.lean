import Oscillator.Decimal.Significant

/-! # Shortest decimals

The decimal text of a double: the fewest digits that read back as the same double, of those the
nearest to it, written with a point and never with an exponent.
-/
namespace Oscillator.Decimal

/-- The magnitude `mantissa · 2 ^ exponent` of a finite double. -/
structure Binary where
  mantissa : Nat
  exponent : Int
  deriving DecidableEq, Repr

namespace Binary

/-- The leading bit of a normal mantissa, `2 ^ 52`. -/
def leadingBit : Nat := 0x10000000000000

/-- The magnitude of a finite double, from its fields of 11 and 52 bits. -/
def ofFloat (x : Float) : Binary :=
  let bits : Nat := x.toBits.toNat
  let fraction : Nat := bits % leadingBit
  let biased : Nat := bits / leadingBit % 2048
  if biased = 0 then ⟨fraction, -1074⟩ else ⟨leadingBit + fraction, (biased : Int) - 1075⟩

def toFraction (x : Binary) : Nat × Nat :=
  if 0 ≤ x.exponent then (x.mantissa * Nat.pow 2 x.exponent.toNat, 1)
  else (x.mantissa, Nat.pow 2 (-x.exponent).toNat)

/-- The ends, in quarters of a unit of the last place, of the numbers that round to `x`. Below a
power of two the doubles lie twice as close. -/
def roundingBounds (x : Binary) : Nat × Nat :=
  let narrow := x.mantissa = leadingBit ∧ -1074 < x.exponent
  (if narrow then 4 * x.mantissa - 1 else 4 * x.mantissa - 2, 4 * x.mantissa + 2)

/-- The nearest decimal of `n` digits that rounds to `x`, a tie going upward. -/
def shortestOf? (x : Binary) (n : Nat) : Option (Nat × Int) :=
  let (num, den) := x.toFraction
  let k := leadingExponent num den - ((n : Int) - 1)
  let (quarterNum, quarterDen) := toFraction ⟨1, x.exponent - 2⟩
  let (unit, scale) := inUnits quarterNum quarterDen k
  let (low, high) := x.roundingBounds
  let readsBack (d : Nat) : Bool :=
    if x.mantissa % 2 = 0 then low * unit ≤ d * scale && d * scale ≤ high * unit
    else low * unit < d * scale && d * scale < high * unit
  let value := 4 * x.mantissa * unit
  let below := value / scale
  match readsBack below, readsBack (below + 1) with
  | true, true => some (if (2 * below + 1) * scale ≤ 2 * value then below + 1 else below, k)
  | true, false => some (below, k)
  | false, true => some (below + 1, k)
  | false, false => none

/-- The shortest decimal that rounds to a positive `x`; 17 digits always suffice. -/
def shortest (x : Binary) : Nat × Int :=
  let found := (List.range 17).findSome? fun n => x.shortestOf? (n + 1)
  let (d, k) := found.getD (significant 17 x.toFraction.1 x.toFraction.2)
  stripZeros d k

end Binary

/-- The decimal `d · 10 ^ k` without an exponent. -/
def positional (d : Nat) (k : Int) : String :=
  if 0 ≤ k then toString (d * Nat.pow 10 k.toNat)
  else
    let places := (-k).toNat
    let unit := Nat.pow 10 places
    let fraction := toString (d % unit)
    toString (d / unit) ++ "." ++ "".pushn '0' (places - fraction.length) ++ fraction

/-- The text of a double: shortest digits that read back, in positional notation. -/
def ofFloat (x : Float) : String :=
  if x.isNaN then "NaN"
  else
    let sign := if x.toBits >>> 63 == 1 then "-" else ""
    let (d, k) := (Binary.ofFloat x).shortest
    sign ++ (if x.isInf then "inf" else if x == 0 then "0" else positional d k)

end Oscillator.Decimal
