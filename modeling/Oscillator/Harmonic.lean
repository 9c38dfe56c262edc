import Oscillator.Arithmetic

/-! # Harmonics

Functions `offset + cosine · cos (frequency · t) + sine · sin (frequency · t)`. A forcing is one,
and so is the steady motion that it ends in.
-/
namespace Oscillator

structure Harmonic (α : Type) where
  offset : α
  cosine : α
  sine : α
  frequency : α
  deriving DecidableEq, Repr

namespace Harmonic

variable {α : Type} [Arithmetic α]

def zero : Harmonic α := ⟨0, 0, 0, 0⟩

/-- A cosine of an amplitude and an angular frequency. -/
def ofCosine (amplitude frequency : α) : Harmonic α := ⟨0, amplitude, 0, frequency⟩

def value (h : Harmonic α) (t : α) : α :=
  let phase := h.frequency * t
  h.offset + h.cosine * Arithmetic.cos phase + h.sine * Arithmetic.sin phase

def derivative (h : Harmonic α) (t : α) : α :=
  let phase := h.frequency * t
  h.frequency * (h.sine * Arithmetic.cos phase - h.cosine * Arithmetic.sin phase)

def isFinite (h : Harmonic α) : Bool :=
  Arithmetic.isFinite h.cosine && Arithmetic.isFinite h.sine
    && Arithmetic.isFinite h.frequency && Arithmetic.isFinite h.offset

/-- The steady motion under a forcing, for a natural frequency and a decay rate. It is not finite
at an undamped resonance. -/
def steadyState (forcing : Harmonic α) (naturalFrequency decayRate : α) : Harmonic α :=
  let w := forcing.frequency
  let detuning := naturalFrequency * naturalFrequency - w * w
  let friction := 2 * decayRate * w
  let denominator := detuning * detuning + friction * friction
  let still := forcing.cosine == 0 && forcing.sine == 0
  { offset := forcing.offset / (naturalFrequency * naturalFrequency)
    cosine :=
      if still then 0
      else (forcing.cosine * detuning - forcing.sine * friction) / denominator
    sine :=
      if still then 0
      else (forcing.cosine * friction + forcing.sine * detuning) / denominator
    frequency := w }

end Harmonic

end Oscillator
