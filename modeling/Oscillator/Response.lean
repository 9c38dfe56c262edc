import Oscillator.Characteristics
import Oscillator.Text.Blank

/-! # Solver responses

What a solver hands over: the regime that it found, its solution as rendered text, and whatever it
knows of the system.
-/
namespace Oscillator

/-- The numbers that a solver lists apart from its solution. -/
structure CoefficientLists (α : Type) where
  frequencies : List α
  decayRates : List α
  amplitudes : List α
  deriving DecidableEq, Repr

structure Response (α : Type) where
  regime : Regime
  solution : Option String
  equation : Option String
  parameters : Option (Parameters α)
  properties : Option (Properties α)
  coefficientLists : Option (CoefficientLists α)
  deriving DecidableEq, Repr

/-- The solution without blanks around it, unless nothing is left. -/
def Response.solutionText {α : Type} (r : Response α) : Option String :=
  (r.solution.map Text.trim).filter (!·.isEmpty)

end Oscillator
