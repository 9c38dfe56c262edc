import Oscillator.Arithmetic
import Oscillator.Expr.Basic

/-! # Linear readings

An expression read as `slope · v + intercept` in one variable `v`, as the arguments of the
elementary functions have to be. An expression without a variable reads as a constant.
-/
namespace Oscillator

variable {α : Type} [Arithmetic α]

def Func.apply : Func → α → α
  | sin => Arithmetic.sin
  | cos => Arithmetic.cos
  | tan => Arithmetic.tan
  | exp => Arithmetic.exp
  | sqrt => Arithmetic.sqrt

structure Linear (α : Type) where
  slope : α
  intercept : α
  deriving DecidableEq, Repr

namespace Linear

def constant (x : α) : Linear α := ⟨0, x⟩

def isConstant (p : Linear α) : Bool := p.slope == 0

def negate (p : Linear α) : Linear α := ⟨-p.slope, -p.intercept⟩

/-- Joins two readings where the result is linear again. -/
def combine? : Op → Linear α → Linear α → Option (Linear α)
  | .add, p, q => some ⟨p.slope + q.slope, p.intercept + q.intercept⟩
  | .sub, p, q => some ⟨p.slope - q.slope, p.intercept - q.intercept⟩
  | .mul, p, q =>
    if p.isConstant then some ⟨p.intercept * q.slope, p.intercept * q.intercept⟩
    else if q.isConstant then some ⟨p.slope * q.intercept, p.intercept * q.intercept⟩
    else none
  | .div, p, q =>
    if q.isConstant && q.intercept != 0 then
      some ⟨p.slope / q.intercept, p.intercept / q.intercept⟩
    else none
  | .pow, p, q =>
    if p.isConstant && q.isConstant then
      some (constant (Arithmetic.pow p.intercept q.intercept))
    else none

/-- The value of a function of a constant, if it is finite. -/
def call? (f : Func) (p : Linear α) : Option (Linear α) :=
  let value := f.apply p.intercept
  if p.isConstant && Arithmetic.isFinite value then some (constant value) else none

end Linear

namespace Expr

/-- The reading of an expression as a linear function of the variable `v`; symbols other than
`v` and Euler's number prevent it. -/
def linearIn (v : String) : Expr α → Option (Linear α)
  | number x => some (.constant x)
  | symbol name =>
    if name = v then some ⟨1, 0⟩
    else if name = eulerName then some (.constant Arithmetic.euler)
    else none
  | unknown _ => none
  | negate e => (e.linearIn v).map .negate
  | binary op left right => do
    let p ← left.linearIn v
    let q ← right.linearIn v
    Linear.combine? op p q
  | call f arg => (arg.linearIn v).bind (Linear.call? f)

/-- The value of an expression that has no variable. -/
def constantValue (e : Expr α) : Option α :=
  (e.linearIn timeName).bind fun p => if p.isConstant then some p.intercept else none

end Expr

end Oscillator
