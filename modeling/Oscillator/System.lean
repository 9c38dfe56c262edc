import Oscillator.Arithmetic
import Oscillator.Decimal.Shortest

/-! # Systems

A mass on a damped spring with its initial state. It is given by mass and stiffness, or by the
coefficients of the equation `x'' + 2 beta x' + omega_sq x = F` as a system of unit mass.
-/
namespace Oscillator

structure Parameters (α : Type) where
  mass : Option α
  stiffness : Option α
  damping : Option α
  force : Option String
  initialPosition : Option α
  initialVelocity : Option α
  beta : Option α
  omegaSquared : Option α
  deriving DecidableEq, Repr

structure System (α : Type) where
  mass : α
  stiffness : α
  damping : α
  initialPosition : α
  initialVelocity : α
  force : Option String
  deriving DecidableEq, Repr

inductive ParameterError (α : Type) where
  | missingMass
  | missingStiffness
  | negativeBeta (beta : α)
  | massNotPositive (mass : α)
  | stiffnessNotPositive (stiffness : α)
  | negativeDamping (damping : α)
  deriving DecidableEq, Repr

def ParameterError.message : ParameterError Float → String
  | missingMass => "mass is required"
  | missingStiffness => "stiffness is required"
  | negativeBeta x => "beta must be non-negative (got " ++ Decimal.ofFloat x ++ ")"
  | massNotPositive x => "mass must be strictly positive (got " ++ Decimal.ofFloat x ++ ")"
  | stiffnessNotPositive x =>
    "stiffness must be strictly positive (got " ++ Decimal.ofFloat x ++ ")"
  | negativeDamping x => "damping must be non-negative (got " ++ Decimal.ofFloat x ++ ")"

namespace Parameters

variable {α : Type} [Arithmetic α]

/-- Requires the constants of a system to be finite, mass and stiffness positive and the damping
not negative. -/
def validate (p : Parameters α) (mass stiffness damping : α) :
    Except (ParameterError α) (System α) :=
  if !(Arithmetic.isFinite mass && decide (0 < mass)) then .error (.massNotPositive mass)
  else if !(Arithmetic.isFinite stiffness && decide (0 < stiffness)) then
    .error (.stiffnessNotPositive stiffness)
  else if !(Arithmetic.isFinite damping && decide (0 ≤ damping)) then
    .error (.negativeDamping damping)
  else .ok {
    mass, stiffness, damping
    initialPosition := p.initialPosition.getD 0
    initialVelocity := p.initialVelocity.getD 0
    force := p.force }

/-- The system that parameters describe, if they describe one. Mass and stiffness come before the
coefficients of the normalized equation. -/
def system? (p : Parameters α) : Except (ParameterError α) (Option (System α)) :=
  match p.mass, p.stiffness, p.omegaSquared with
  | some mass, some stiffness, _ => some <$> p.validate mass stiffness (p.damping.getD 0)
  | some _, none, _ => .error .missingStiffness
  | none, some _, _ => .error .missingMass
  | none, none, some omegaSquared =>
    let beta := p.beta.getD 0
    if 0 ≤ beta then some <$> p.validate 1 omegaSquared (2 * beta)
    else .error (.negativeBeta beta)
  | none, none, none => .ok none

end Parameters

end Oscillator
