import Oscillator.Characteristics
import Oscillator.Degradation

/-! # Resolutions

The constants found for a response, how they were found, and what had to be made up.
-/
namespace Oscillator

/-- Constants are computed from parameters, or read in the solution text. -/
inductive Mode where
  | parametric
  | textual
  deriving DecidableEq, Repr

def Mode.tag : Mode → String
  | parametric => "parametric"
  | textual => "textual"

/-- Whether a result is not exact: what is read in a text never is. -/
def Mode.isApproximate {α : Type} (m : Mode) (degradations : List (Degradation α)) : Bool :=
  m == textual || degradations.any (·.affectsCurve)

structure Resolution (α : Type) where
  regime : Regime
  mode : Mode
  coefficients : Coefficients α
  system : Option (System α)
  characteristics : Option (Characteristics α)
  degradations : List (Degradation α)
  deriving DecidableEq, Repr

namespace Resolution

variable {α : Type}

def isApproximate (r : Resolution α) : Bool := r.mode.isApproximate r.degradations

/-- Whether symbols were read as a default value. -/
def hasDefaultedConstants (r : Resolution α) : Bool :=
  r.degradations.any (·.isUnresolvedConstants)

end Resolution

end Oscillator
