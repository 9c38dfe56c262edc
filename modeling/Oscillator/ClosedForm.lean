import Oscillator.Harmonic
import Oscillator.Regime

/-! # Closed forms

The motion of each regime as a formula in its constants, and two reference signals that are plotted
when the constants make no formula.
-/
namespace Oscillator

abbrev Signal (α : Type) := α → α

/-- The constants of a motion, by regime. -/
inductive Coefficients (α : Type) where
  /-- The motion `c1 cos (omega t) + c2 sin (omega t)`. -/
  | undamped (c1 c2 omega : α)
  /-- The motion `exp (-alpha t) (c1 cos (omegaD t) + c2 sin (omegaD t))`. -/
  | underdamped (c1 c2 alpha omegaD : α)
  /-- An underdamped transient on top of a steady motion. -/
  | forced (c1 c2 alpha omegaD : α) (steady : Harmonic α)
  /-- The motion `(c1 + c2 t) exp (-rate t)`. -/
  | critical (c1 c2 rate : α)
  /-- The motion `c1 exp (r1 t) + c2 exp (r2 t)`. -/
  | overdamped (c1 c2 r1 r2 : α)
  deriving DecidableEq, Repr

namespace Coefficients

variable {α : Type} [Arithmetic α]

omit [Arithmetic α] in
def regime : Coefficients α → Regime
  | undamped .. => .undamped
  | underdamped .. => .underdamped
  | forced .. => .forced
  | critical .. => .critical
  | overdamped .. => .overdamped

def isFinite : Coefficients α → Bool
  | undamped c1 c2 omega => [c1, c2, omega].all Arithmetic.isFinite
  | underdamped c1 c2 alpha omegaD => [c1, c2, alpha, omegaD].all Arithmetic.isFinite
  | forced c1 c2 alpha omegaD steady =>
    [c1, c2, alpha, omegaD].all Arithmetic.isFinite && steady.isFinite
  | critical c1 c2 rate => [c1, c2, rate].all Arithmetic.isFinite
  | overdamped c1 c2 r1 r2 => [c1, c2, r1, r2].all Arithmetic.isFinite

def transient (c1 c2 alpha omegaD t : α) : α :=
  Arithmetic.exp (-alpha * t)
    * (c1 * Arithmetic.cos (omegaD * t) + c2 * Arithmetic.sin (omegaD * t))

def value : Coefficients α → Signal α
  | undamped c1 c2 omega, t => c1 * Arithmetic.cos (omega * t) + c2 * Arithmetic.sin (omega * t)
  | underdamped c1 c2 alpha omegaD, t => transient c1 c2 alpha omegaD t
  | forced c1 c2 alpha omegaD steady, t => transient c1 c2 alpha omegaD t + steady.value t
  | critical c1 c2 rate, t => (c1 + c2 * t) * Arithmetic.exp (-rate * t)
  | overdamped c1 c2 r1 r2, t => c1 * Arithmetic.exp (r1 * t) + c2 * Arithmetic.exp (r2 * t)

end Coefficients

/-- The signals that stand in for a closed form. -/
inductive Reference where
  | cosine
  | decayingCosine
  deriving DecidableEq, Repr

def Reference.value {α : Type} [Arithmetic α] : Reference → Signal α
  | cosine, t => Arithmetic.cos t
  | decayingCosine, t => Arithmetic.exp (-0.2 * t) * Arithmetic.cos t

inductive ClosedForm (α : Type) where
  | regime (c : Coefficients α)
  | reference (r : Reference)
  deriving DecidableEq, Repr

def ClosedForm.value {α : Type} [Arithmetic α] : ClosedForm α → Signal α
  | regime c => c.value
  | reference r => r.value

inductive FormFailure where
  | mismatch (found wanted : Regime)
  | nonFiniteCoefficients (regime : Regime)
  | nonFiniteStart (regime : Regime)
  deriving DecidableEq, Repr

def FormFailure.message : FormFailure → String
  | mismatch found wanted =>
    "coefficients for " ++ found.tag ++ " cannot drive a " ++ wanted.tag ++ " template"
  | nonFiniteCoefficients regime => "non-finite " ++ regime.tag ++ " coefficients"
  | nonFiniteStart regime => regime.tag ++ " closed form is not finite at t = 0"

/-- A signal to plot, and why it is not the closed form. -/
structure Evaluation (α : Type) where
  signal : ClosedForm α
  failure : Option FormFailure
  deriving DecidableEq, Repr

namespace Coefficients

variable {α : Type} [Arithmetic α]

/-- What keeps constants from making the closed form of a regime: they belong to another one, or
the form is not finite. -/
def failure? (c : Coefficients α) (regime : Regime) : Option FormFailure :=
  if c.regime ≠ regime then some (.mismatch c.regime regime)
  else if !c.isFinite then some (.nonFiniteCoefficients regime)
  else if !Arithmetic.isFinite (c.value 0) then some (.nonFiniteStart regime)
  else none

/-- The closed form of a regime, or a reference signal where there is none. -/
def evaluation (c : Coefficients α) (regime : Regime) (reference : Reference) : Evaluation α :=
  match c.failure? regime with
  | none => ⟨.regime c, none⟩
  | some reason => ⟨.reference reference, some reason⟩

end Coefficients

end Oscillator
