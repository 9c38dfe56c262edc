import Oscillator.ComplexNumber
import Oscillator.Regime
import Oscillator.System

/-! # Characteristics

The frequencies, rates and characteristic roots of a system. They follow from the system, from the
properties that a solver reports, or from both, where reported properties come first.
-/
namespace Oscillator

/-- A reported property, which may be complex; only its real part is used. -/
inductive Property (α : Type) where
  | real (x : α)
  | complex (re im : α)
  deriving DecidableEq, Repr

def Property.realPart {α : Type} : Property α → α
  | real x => x
  | complex re _ => re

structure Properties (α : Type) where
  naturalFrequency : Option (Property α)
  dampingCoefficient : Option (Property α)
  dampedFrequency : Option (Property α)
  dampingRatio : Option (Property α)
  dampedPeriod : Option (Property α)
  logarithmicDecrement : Option (Property α)
  deriving DecidableEq, Repr

structure Characteristics (α : Type) where
  naturalFrequency : α
  decayRate : α
  dampingRatio : α
  dampedFrequency : Option α
  dampedPeriod : Option α
  logarithmicDecrement : Option α
  firstRoot : ComplexNumber α
  secondRoot : ComplexNumber α
  deriving DecidableEq, Repr

namespace Characteristics

variable {α : Type} [Arithmetic α]

/-- A reported value that is finite and positive. -/
def positive? (p : Option (Property α)) : Option α :=
  (p.map (·.realPart)).filter fun x => Arithmetic.isFinite x && decide (0 < x)

/-- A reported value that is finite and not negative. -/
def nonnegative? (p : Option (Property α)) : Option α :=
  (p.map (·.realPart)).filter fun x => Arithmetic.isFinite x && decide (0 ≤ x)

/-- The roots of `r ^ 2 + 2 zeta omega r + omega ^ 2`, the one with the larger part subtracted
first. -/
def roots (naturalFrequency dampingRatio : α) : ComplexNumber α × ComplexNumber α :=
  let zeta : ComplexNumber α := ⟨dampingRatio, 0⟩
  let discriminant := ((zeta.mul zeta).subReal 1).sqrtOfReal
  ((zeta.add discriminant).neg.scale naturalFrequency,
    (zeta.sub discriminant).neg.scale naturalFrequency)

/-- Completes the characteristics; without a damped frequency it follows from the others below
critical damping. -/
def ofRates (naturalFrequency decayRate dampingRatio : α) (dampedFrequency : Option α) :
    Characteristics α :=
  let squared := naturalFrequency * naturalFrequency - decayRate * decayRate
  let derived := if dampingRatio < 1 ∧ 0 < squared then some (Arithmetic.sqrt squared) else none
  let dampedFrequency := dampedFrequency <|> derived
  let dampedPeriod := dampedFrequency.map fun w => 2 * Arithmetic.pi / w
  let (firstRoot, secondRoot) := roots naturalFrequency dampingRatio
  { naturalFrequency, decayRate, dampingRatio, dampedFrequency, dampedPeriod
    logarithmicDecrement := dampedPeriod.map fun period => decayRate * period
    firstRoot, secondRoot }

def ofSystem (s : System α) : Characteristics α :=
  ofRates (Arithmetic.sqrt (s.stiffness / s.mass)) (s.damping / (2 * s.mass))
    (s.damping / (2 * Arithmetic.sqrt (s.stiffness * s.mass))) none

/-- Reported period and decrement are shown as they are. -/
def withReported (c : Characteristics α) (p : Properties α) : Characteristics α :=
  { c with
    dampedPeriod := positive? p.dampedPeriod <|> c.dampedPeriod
    logarithmicDecrement := nonnegative? p.logarithmicDecrement <|> c.logarithmicDecrement }

/-- The characteristics that reported properties determine by themselves; of decay rate and damping
ratio one gives the other, and without both there is no damping. -/
def ofProperties? (p : Properties α) : Option (Characteristics α) :=
  (positive? p.naturalFrequency).map fun omega =>
    let (decayRate, dampingRatio) :=
      match nonnegative? p.dampingCoefficient, nonnegative? p.dampingRatio with
      | some alpha, some zeta => (alpha, zeta)
      | some alpha, none => (alpha, alpha / omega)
      | none, some zeta => (zeta * omega, zeta)
      | none, none => (0, 0)
    (ofRates omega decayRate dampingRatio (positive? p.dampedFrequency)).withReported p

/-- Puts reported properties in place of those computed. -/
def mergedWith (c : Characteristics α) : Option (Properties α) → Characteristics α
  | none => c
  | some p =>
    (ofRates ((positive? p.naturalFrequency).getD c.naturalFrequency)
      ((nonnegative? p.dampingCoefficient).getD c.decayRate)
      ((nonnegative? p.dampingRatio).getD c.dampingRatio)
      (positive? p.dampedFrequency)).withReported p

def regime (c : Characteristics α) (isForced : Bool) : Regime :=
  .ofDampingRatio c.dampingRatio isForced

end Characteristics

end Oscillator
