import Oscillator.Derivative
import Oscillator.Sampling.Grid

/-! # Samples

A signal read at the times of a grid, as position or as velocity. Points where it is not finite are
left out and counted.
-/
namespace Oscillator

inductive Channel where
  | position
  | velocity
  deriving DecidableEq, Repr

structure Sample (α : Type) where
  time : α
  value : α
  deriving DecidableEq, Repr

/-- A pass over a grid: the points before `index` have been read, and `skipped` of them left out. -/
structure Samples (α : Type) where
  signal : Signal α
  grid : TimeGrid α
  channel : Channel
  derivativeStep : α
  index : Nat
  skipped : Nat

namespace Samples

variable {α : Type} [Arithmetic α]

def start (signal : Signal α) (grid : TimeGrid α) (channel : Channel) (derivativeStep : α) :
    Samples α :=
  ⟨signal, grid, channel, derivativeStep, 0, 0⟩

def channelValue (s : Samples α) (t : α) : α :=
  match s.channel with
  | .position => s.signal t
  | .velocity => (s.signal.velocity? t s.derivativeStep).getD Arithmetic.undefined

/-- The sample at a point of the grid, if it is finite. -/
def at? (s : Samples α) (i : Nat) : Option (Sample α) :=
  let t := s.grid.time i
  let value := s.channelValue t
  if Arithmetic.isFinite value then some ⟨t, value⟩ else none

omit [Arithmetic α] in
/-- The most samples that can follow. -/
def remaining (s : Samples α) : Nat := s.grid.count - s.index

/-- Reads up to the next finite sample, if there is one. -/
def next (s : Samples α) : Option (Sample α) × Samples α :=
  if s.index < s.grid.count then
    match s.at? s.index with
    | some sample => (some sample, { s with index := s.index + 1 })
    | none => next { s with index := s.index + 1, skipped := s.skipped + 1 }
  else (none, s)
termination_by s.grid.count - s.index

/-- Reads to the end: the samples that follow, and the number of points left out since the start. -/
def collect (s : Samples α) : List (Sample α) × Nat :=
  let points := (List.range' s.index s.remaining).map s.at?
  (points.filterMap id, s.skipped + (points.filter (·.isNone)).length)

end Samples

namespace Signal

variable {α : Type} [Arithmetic α]

/-- The positions on the grid from zero to a bound. -/
def sample (f : Signal α) (bound step : α) : List (Sample α) :=
  (Samples.start f (.ofRange bound step) .position 0).collect.1

end Signal

end Oscillator
