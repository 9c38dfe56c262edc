import Oscillator.Forcing
import Oscillator.Resolution.Basic
import Oscillator.Settings

/-! # Constants from parameters

Each regime's constants are those with which the closed form starts at the initial position with
the initial velocity.
-/
namespace Oscillator.Parametric

variable {α : Type} [Arithmetic α]

/-- The forcing of a system; a literal that is none, or none at all, gives the default. -/
def forcing (s : System α) (settings : Settings α) : Harmonic α × List (Degradation α) :=
  let literal := s.force.getD ""
  match Forcing.parse literal with
  | .ok forcing => (forcing, [])
  | .error _ => (settings.defaultForcing, [.unsupportedForcing literal])

def undamped (c : Characteristics α) (x v : α) : Coefficients α :=
  .undamped x (v / c.naturalFrequency) c.naturalFrequency

/-- The constants of an underdamped motion; without a damped frequency they are not finite. -/
def underdamped (c : Characteristics α) (x v : α) : Coefficients α :=
  let omegaD := c.dampedFrequency.getD Arithmetic.undefined
  .underdamped x ((v + c.decayRate * x) / omegaD) c.decayRate omegaD

/-- The constants of a forced motion: the transient starts at what the steady motion leaves. -/
def forced (c : Characteristics α) (x v : α) (forcing : Harmonic α) : Coefficients α :=
  let omegaD := c.dampedFrequency.getD Arithmetic.undefined
  let steady := forcing.steadyState c.naturalFrequency c.decayRate
  let c1 := x - steady.value 0
  .forced c1 ((v + c.decayRate * c1 - steady.derivative 0) / omegaD) c.decayRate omegaD steady

def critical (c : Characteristics α) (x v : α) : Coefficients α :=
  .critical x (v + c.naturalFrequency * x) c.naturalFrequency

def overdamped (c : Characteristics α) (x v : α) : Coefficients α :=
  let r1 := c.firstRoot.re
  let r2 := c.secondRoot.re
  let c2 := (v - r1 * x) / (r2 - r1)
  .overdamped (x - c2) c2 r1 r2

def resolve (regime : Regime) (s : System α) (properties : Option (Properties α))
    (settings : Settings α) : Resolution α :=
  let c := (Characteristics.ofSystem s).mergedWith properties
  let x := s.initialPosition
  let v := s.initialVelocity
  let (coefficients, degradations) :=
    match regime with
    | .undamped => (undamped c x v, [])
    | .underdamped => (underdamped c x v, [])
    | .forced =>
      let (f, degradations) := forcing s settings
      (forced c x v f, degradations)
    | .critical => (critical c x v, [])
    | .overdamped => (overdamped c x v, [])
  { regime, mode := .parametric, coefficients, system := some s, characteristics := some c
    degradations }

end Oscillator.Parametric
