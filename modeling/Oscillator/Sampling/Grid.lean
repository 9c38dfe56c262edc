import Oscillator.Arithmetic

/-! # Time grids

The times `i · step` from zero up to a bound. A grid may have too many points to list; it is then
capped, or read point by point.
-/
namespace Oscillator

/-- The times `i · step` for `i < count`, none above `bound`. -/
structure TimeGrid (α : Type) where
  bound : α
  step : α
  count : Nat
  deriving DecidableEq, Repr

namespace TimeGrid

variable {α : Type} [Arithmetic α]

/-- The largest count of points, `2 ^ 64 - 1`. -/
def maxCount : Nat := 0xffffffffffffffff

/-- The whole steps that fit below a bound, if both are finite, the bound is not negative and the
step is positive. Rounding does not lose a step. -/
def intervals? (bound step : α) : Option α :=
  if Arithmetic.isFinite bound && decide (0 ≤ bound)
      && Arithmetic.isFinite step && decide (0 < step) then
    some (Arithmetic.floor (bound / step + 1e-9))
  else none

/-- The grid from zero to a bound, both included; without whole steps it is empty. -/
def ofRange (bound step : α) : TimeGrid α :=
  let count :=
    match intervals? bound step with
    | some n => min (Arithmetic.toCount n + 1) maxCount
    | none => 0
  ⟨bound, step, count⟩

/-- Like `ofRange`, with the step widened to have at most `maxPoints` points; zero sets no limit. -/
def capped (bound step : α) (maxPoints : Nat) : TimeGrid α :=
  match intervals? bound step with
  | none => ofRange bound step
  | some n =>
    if maxPoints = 0 ∨ n + 1 ≤ (maxPoints : α) then ofRange bound step
    else if maxPoints = 1 then ⟨bound, step, 1⟩
    else ofRange bound (bound / ((maxPoints - 1 : Nat) : α))

def isEmpty (g : TimeGrid α) : Bool := g.count == 0

def time (g : TimeGrid α) (i : Nat) : α := Arithmetic.smaller ((i : α) * g.step) g.bound

end TimeGrid

end Oscillator
