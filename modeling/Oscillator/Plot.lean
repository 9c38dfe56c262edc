import Oscillator.Playback
import Oscillator.Resolution.Response
import Oscillator.Sampling.Keyframes

/-! # Plots

From a solver's response to a signal, and from a signal to samples. Only wrong parameters and an
empty response are errors; everything else is shown and reported.
-/
namespace Oscillator

/-- A signal with what has to be said beside it. -/
structure Prepared (α : Type) where
  regime : Regime
  mode : Mode
  signal : ClosedForm α
  /-- The constants of the closed form, unless a reference signal stands in for it. -/
  coefficients : Option (Coefficients α)
  characteristics : Option (Characteristics α)
  stiffness : Option α
  degradations : List (Degradation α)
  deriving DecidableEq, Repr

/-- Both curves of a signal, with what has to be said beside them. -/
structure Plot (α : Type) where
  /-- No regime belongs to a preview. -/
  regime : Option Regime
  positions : List (Sample α)
  velocities : List (Sample α)
  approximate : Bool
  defaultedConstants : Bool
  degradations : List (Degradation α)
  characteristics : Option (Characteristics α)
  coefficients : Option (Coefficients α)
  deriving DecidableEq, Repr

variable {α : Type} [Arithmetic α]

/-- The signal that stands in for a closed form in each mode. -/
def Mode.reference : Mode → Reference
  | parametric => .cosine
  | textual => .decayingCosine

def Resolution.prepare (r : Resolution α) : Prepared α :=
  let evaluation := r.coefficients.evaluation r.regime r.mode.reference
  { regime := r.regime
    mode := r.mode
    signal := evaluation.signal
    coefficients := if evaluation.failure.isNone then some r.coefficients else none
    characteristics := r.characteristics
    stiffness := r.system.map (·.stiffness)
    degradations := r.degradations ++ (evaluation.failure.map .evaluationFailure).toList }

def Response.prepare (r : Response α) (settings : Settings α) :
    Except (ResponseError α) (Prepared α) :=
  (·.prepare) <$> r.resolve settings

/-- The positions and velocities of a signal over the sampled range, and a report of the points
left out. -/
def Signal.curves (f : Signal α) (settings : Settings α) :
    List (Sample α) × List (Sample α) × List (Degradation α) :=
  let s := settings.sampling
  let grid := TimeGrid.capped s.horizon s.step s.maxPoints
  let (positions, dropped) := (Samples.start f grid .position settings.derivativeStep).collect
  let (velocities, dropped') := (Samples.start f grid .velocity settings.derivativeStep).collect
  let count := dropped + dropped'
  (positions, velocities, if 0 < count then [.nonFiniteSamples count] else [])

namespace Prepared

omit [Arithmetic α] in
def isApproximate (p : Prepared α) : Bool := p.mode.isApproximate p.degradations

omit [Arithmetic α] in
/-- Whether symbols were read as a default value. -/
def hasDefaultedConstants (p : Prepared α) : Bool :=
  p.degradations.any (·.isUnresolvedConstants)

def value (p : Prepared α) : Signal α := p.signal.value

def plot (p : Prepared α) (settings : Settings α) : Plot α :=
  let (positions, velocities, left) := Signal.curves p.value settings
  { regime := some p.regime
    positions, velocities
    approximate := p.isApproximate
    defaultedConstants := p.hasDefaultedConstants
    degradations := p.degradations ++ left
    characteristics := p.characteristics
    coefficients := p.coefficients }

def session (p : Prepared α) (settings : Settings α) : Session α :=
  .start settings.playback settings.derivativeStep p.stiffness

/-- The frames of the growing curve over the horizon of playback. -/
def keyframes (p : Prepared α) (settings : Settings α) (frames : Nat) (channel : Channel) :
    List (List (Sample α)) :=
  let s := settings.playback
  Signal.keyframes p.value s.horizon s.step s.maxPoints frames channel settings.derivativeStep

end Prepared

def Response.plot (r : Response α) (settings : Settings α) :
    Except (ResponseError α) (Plot α) :=
  (·.plot settings) <$> r.prepare settings

/-- The plot shown before there is a response: a decaying cosine. -/
def Plot.preview (settings : Settings α) : Plot α :=
  let (positions, velocities, left) := Signal.curves (ClosedForm.reference .decayingCosine).value
    settings
  { regime := none
    positions, velocities
    approximate := true
    defaultedConstants := false
    degradations := left
    characteristics := none
    coefficients := none }

end Oscillator
