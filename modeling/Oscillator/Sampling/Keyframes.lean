import Oscillator.Sampling.Samples

/-! # Keyframes

A curve that grows in equal parts up to a horizon, given out frame by frame. Each frame is sampled from the
start again, on a grid of its own.
-/
namespace Oscillator

/-- A pass over the frames of a growing curve: those before `index` have been given out. -/
structure Keyframes (α : Type) where
  signal : Signal α
  horizon : α
  step : α
  maxPoints : Nat
  frames : Nat
  channel : Channel
  derivativeStep : α
  index : Nat

namespace Keyframes

variable {α : Type} [Arithmetic α]

def start (signal : Signal α) (horizon step : α) (maxPoints frames : Nat) (channel : Channel)
    (derivativeStep : α) : Keyframes α :=
  ⟨signal, horizon, step, maxPoints, frames, channel, derivativeStep, 0⟩

/-- The curve up to `i / frames` of the horizon. -/
def frame (k : Keyframes α) (i : Nat) : List (Sample α) :=
  let bound := k.horizon * (i : α) / (k.frames : α)
  (Samples.start k.signal (.capped bound k.step k.maxPoints) k.channel k.derivativeStep).collect.1

/-- The next frame, if one is left. Without parts there are no frames. -/
def next (k : Keyframes α) : Option (List (Sample α)) × Keyframes α :=
  if k.frames = 0 ∨ k.frames < k.index then (none, k)
  else (some (k.frame k.index), { k with index := k.index + 1 })

/-- The frames that are left. -/
def collect (k : Keyframes α) : List (List (Sample α)) :=
  match _h : k.next with
  | (none, _) => []
  | (some frame, k') => frame :: k'.collect
termination_by k.frames + 1 - k.index
decreasing_by
  unfold next at _h
  split at _h <;> cases _h
  simp only
  omega

end Keyframes

/-- The curve growing in equal parts up to a horizon: its start alone first, the whole curve last. -/
def Signal.keyframes {α : Type} [Arithmetic α] (f : Signal α) (horizon step : α)
    (maxPoints frames : Nat) (channel : Channel) (derivativeStep : α) : List (List (Sample α)) :=
  (Keyframes.start f horizon step maxPoints frames channel derivativeStep).collect

end Oscillator
