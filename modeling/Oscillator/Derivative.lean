import Oscillator.ClosedForm

/-! # Numerical derivatives

Velocity and acceleration from differences of a signal: central ones inside the domain, and forward
ones of second order where a step back would leave it. No signal is evaluated at a negative time.
-/
namespace Oscillator

structure Derivatives (α : Type) where
  velocity : α
  acceleration : α
  deriving DecidableEq, Repr

namespace Signal

variable {α : Type} [Arithmetic α]

def centralDifferences (f : Signal α) (t h : α) : Derivatives α :=
  let ahead := f (t + h)
  let here := f t
  let behind := f (t - h)
  ⟨(ahead - behind) / (2 * h), (ahead - 2 * here + behind) / (h * h)⟩

def forwardDifferences (f : Signal α) (t h : α) : Derivatives α :=
  let f0 := f t
  let f1 := f (t + h)
  let f2 := f (t + 2 * h)
  let f3 := f (t + 3 * h)
  ⟨(-3 * f0 + 4 * f1 - f2) / (2 * h), (2 * f0 - 5 * f1 + 4 * f2 - f3) / (h * h)⟩

/-- The derivatives at `t` with step `h`, if the step is positive and both are finite. -/
def derivatives? (f : Signal α) (t h : α) : Option (Derivatives α) :=
  if Arithmetic.isUndefined h || decide (h ≤ 0) || !Arithmetic.isFinite t then none
  else
    let d := if 0 ≤ t - h then f.centralDifferences t h else f.forwardDifferences t h
    if Arithmetic.isFinite d.velocity && Arithmetic.isFinite d.acceleration then some d else none

def velocity? (f : Signal α) (t h : α) : Option α := (f.derivatives? t h).map (·.velocity)

end Signal

end Oscillator
