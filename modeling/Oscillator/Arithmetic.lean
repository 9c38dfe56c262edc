/-! # Arithmetic

The numbers that every formula of the library computes with. Formulas are written once over
`Arithmetic`; the plots run on `Float`, and statements about the formulas choose the
arithmetic they speak of.
-/
namespace Oscillator

/-- Numbers with the elementary functions, ordered by decidable tests. An operation without a
value answers `undefined` or another number that is not finite. -/
class Arithmetic (α : Type) extends Add α, Sub α, Mul α, Div α, Neg α, LT α, LE α, BEq α where
  [decideLT : DecidableLT α]
  [decideLE : DecidableLE α]
  /-- The number `m · 10 ^ e`. -/
  decimal (m : Nat) (e : Int) : α
  /-- The result of an operation that has none. -/
  undefined : α
  pi : α
  euler : α
  isFinite : α → Bool
  /-- Whether the sign is a minus, also that of a zero. -/
  isNegative : α → Bool
  abs : α → α
  floor : α → α
  sqrt : α → α
  sin : α → α
  cos : α → α
  tan : α → α
  exp : α → α
  pow : α → α → α
  /-- The whole part of a number as a count below `2 ^ 64`, the nearest one outside. -/
  toCount : α → Nat
  /-- An exponent of time as this arithmetic stores it. -/
  storePower : Int → Int

namespace Arithmetic

variable {α : Type} [Arithmetic α]

attribute [reducible, instance] Arithmetic.decideLT Arithmetic.decideLE

instance (priority := low) (n : Nat) : OfNat α n := ⟨decimal n 0⟩

instance (priority := low) : OfScientific α :=
  ⟨fun m negative e => decimal m (if negative then -(e : Int) else e)⟩

instance (priority := low) : NatCast α := ⟨fun n => decimal n 0⟩

/-- An undefined number differs from itself. -/
def isUndefined (x : α) : Bool := !(x == x)

/-- The larger number; an undefined one gives way to the other. -/
def larger (x y : α) : α := if x < y || isUndefined x then y else x

/-- The smaller number; an undefined one gives way to the other. -/
def smaller (x y : α) : α := if y < x || isUndefined x then y else x

/-- The nearest number between two bounds; an undefined one stays so. -/
def clamp (x lo hi : α) : α := if x < lo then lo else if hi < x then hi else x

/-- One with the sign of a number; an undefined one stays so. -/
def sign (x : α) : α := if isUndefined x then x else if isNegative x then -1 else 1

def isWhole (x : α) : Bool := x - floor x == 0

end Arithmetic

structure Elementary where
  sin : Float → Float
  cos : Float → Float
  tan : Float → Float
  exp : Float → Float
  pow : Float → Float → Float

def Elementary.native : Elementary where
  sin := Float.sin
  cos := Float.cos
  tan := Float.tan
  exp := Float.exp
  pow := Float.pow

namespace Double

open Float.Model in
/-- The largest whole number that is not above another; infinities, zeros and all numbers without
binary places stay as they are. -/
def floor (x : Float) : Float :=
  match x.toModel.unpack with
  | .finite sign mantissa exponent _ =>
    if 0 ≤ exponent then x
    else
      let places := (-exponent).toNat
      let whole := mantissa >>> places
      match sign with
      | .positive => whole.toUInt64.toFloat
      | .negative => if whole <<< places = mantissa then x else -(whole + 1).toUInt64.toFloat
  | _ => x

/-- Double precision over elementary functions: exponents of time are kept in 32 bits. -/
@[reducible] def arithmetic (e : Elementary) : Arithmetic Float where
  decideLT := inferInstance
  decideLE := inferInstance
  decimal m e := Float.ofScientific m (e < 0) e.natAbs
  undefined := 0.0 / 0.0
  pi := 3.141592653589793
  euler := 2.718281828459045
  isFinite := Float.isFinite
  isNegative x := x.toBits >>> 63 == 1
  abs := Float.abs
  floor := floor
  sqrt := Float.sqrt
  sin := e.sin
  cos := e.cos
  tan := e.tan
  exp := e.exp
  pow := e.pow
  toCount x := x.toUInt64.toNat
  storePower n := n.bmod 0x100000000

end Double

instance : Arithmetic Float := Double.arithmetic .native

end Oscillator
