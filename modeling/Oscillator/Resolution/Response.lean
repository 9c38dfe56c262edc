import Oscillator.Resolution.Parametric
import Oscillator.Resolution.Textual
import Oscillator.Response

/-! # Resolving a response

Parameters win over the solution text, and wrong parameters are an error also beside a text.
-/
namespace Oscillator

inductive ResponseError (α : Type) where
  | invalidParameters (e : ParameterError α)
  | noInput
  deriving DecidableEq, Repr

def ResponseError.message : ResponseError Float → String
  | invalidParameters e => "Invalid parameters: " ++ e.message
  | noInput => "No input data: neither system parameters nor a solution string were supplied"

namespace Response

variable {α : Type} [Arithmetic α]

def system? (r : Response α) : Except (ParameterError α) (Option (System α)) :=
  match r.parameters with
  | some p => p.system?
  | none => .ok none

def resolve (r : Response α) (settings : Settings α) :
    Except (ResponseError α) (Resolution α) :=
  match r.system?, r.solutionText with
  | .error e, _ => .error (.invalidParameters e)
  | .ok (some s), _ => .ok (Parametric.resolve r.regime s r.properties settings)
  | .ok none, some text =>
    .ok (Textual.resolve r.regime text r.properties settings.textDefaults)
  | .ok none, none => .error .noInput

end Response

end Oscillator
