import Oscillator.Harmonic

/-! # Settings

What a plot can be told: the range it samples, how it is played, and the values that stand in for
what a solution text does not say.
-/
namespace Oscillator

structure SamplingSettings (α : Type) where
  horizon : α
  step : α
  /-- The largest number of points; the step is widened to respect it, and zero sets no limit. -/
  maxPoints : Nat
  deriving DecidableEq, Repr

structure PlaybackSettings (α : Type) where
  horizon : α
  step : α
  /-- The playing time that passes in a unit of clock time. -/
  speed : α
  /-- Whether playing starts over at the horizon instead of finishing there. -/
  looping : Bool
  maxPoints : Nat
  deriving DecidableEq, Repr

/-- Stand-ins for what is missing in a solution text. -/
structure TextDefaults (α : Type) where
  placeholder : α
  underdampedDecay : α
  forcedDecay : α
  angularFrequency : α
  forcingFrequency : α
  criticalRate : α
  firstOverdampedRate : α
  secondOverdampedRate : α
  deriving DecidableEq, Repr

structure Settings (α : Type) where
  sampling : SamplingSettings α
  playback : PlaybackSettings α
  derivativeStep : α
  textDefaults : TextDefaults α
  defaultForcing : Harmonic α
  deriving DecidableEq, Repr

variable {α : Type} [Arithmetic α]

namespace PlaybackSettings

def minSpeed : α := 0.1

def maxSpeed : α := 3

/-- A speed within bounds; one that is not finite becomes one. -/
def clampSpeed (speed : α) : α :=
  if Arithmetic.isFinite speed then Arithmetic.clamp speed minSpeed maxSpeed else 1

def standard : PlaybackSettings α := ⟨20, 0.1, 1, false, 300⟩

end PlaybackSettings

def SamplingSettings.standard : SamplingSettings α := ⟨20, 0.1, 300⟩

def TextDefaults.standard : TextDefaults α := ⟨1, 0.2, 0.5, 1, 3, 1, 0.5, 2⟩

def Settings.standard : Settings α :=
  ⟨.standard, .standard, 0.01, .standard, .ofCosine 2 3⟩

end Oscillator
