import Oscillator.ClosedForm
import Oscillator.Text.Names

/-! # Degradations

What makes a plot less than exact without stopping it: each is reported beside the plot.
-/
namespace Oscillator

/-- The parts of a closed form that a solution text may leave out. -/
inductive Component where
  | amplitudes
  | decayRate
  | angularFrequency
  | forcingFrequency
  | overdampedRate
  deriving DecidableEq, Repr

def Component.name : Component → String
  | amplitudes => "amplitudes"
  | decayRate => "decay_rate"
  | angularFrequency => "angular_frequency"
  | forcingFrequency => "forcing_frequency"
  | overdampedRate => "overdamped_rate"

inductive Degradation (α : Type) where
  /-- Symbols in a solution text were read as a default value. -/
  | unresolvedConstants (symbols : Names) (value : α)
  /-- Points were left out because the signal is not finite there. -/
  | nonFiniteSamples (count : Nat)
  /-- A reference signal is shown instead of the closed form. -/
  | evaluationFailure (reason : FormFailure)
  /-- A default value stands in for a part missing in a solution text. -/
  | fallbackConstant (component : Component) (value : α)
  /-- The default forcing stands in for a literal that is none. -/
  | unsupportedForcing (literal : String)
  deriving DecidableEq, Repr

def Degradation.isUnresolvedConstants {α : Type} : Degradation α → Bool
  | unresolvedConstants .. => true
  | _ => false

/-- Points left out do not make the others wrong; everything else does. -/
def Degradation.affectsCurve {α : Type} : Degradation α → Bool
  | nonFiniteSamples _ => false
  | _ => true

end Oscillator
