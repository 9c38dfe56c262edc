import Oscillator.Sampling.Samples
import Oscillator.Settings

/-! # Playback

A cursor that moves over the time of a signal as a clock ticks, with the curve up to it and the
readings at it. A session knows no signal; each tick brings the one to be shown.
-/
namespace Oscillator

/-- The readings of a signal at one time. -/
structure Frame (α : Type) where
  time : α
  position : α
  velocity : Option α
  acceleration : Option α
  /-- The part of the horizon that has passed. -/
  progress : α
  springForce : Option α
  deriving DecidableEq, Repr

variable {α : Type} [Arithmetic α]

/-- The part of a horizon that a time is; an empty horizon has always passed. -/
def progressAt (t horizon : α) : α :=
  if 0 < horizon then Arithmetic.clamp (t / horizon) 0 1 else 1

/-- The readings at `t`; the spring pulls back a finite position. -/
def Signal.frame (f : Signal α) (t h horizon : α) (stiffness : Option α) : Frame α :=
  let position := f t
  let derivatives := f.derivatives? t h
  { time := t
    position
    velocity := derivatives.map (·.velocity)
    acceleration := derivatives.map (·.acceleration)
    progress := progressAt t horizon
    springForce :=
      if Arithmetic.isFinite position then stiffness.map fun k => -k * position else none }

inductive TickOutcome (α : Type) where
  | paused
  | advanced (frame : Frame α)
  | finished (frame : Frame α)
  deriving DecidableEq, Repr

structure Session (α : Type) where
  settings : PlaybackSettings α
  derivativeStep : α
  stiffness : Option α
  cursor : α
  playing : Bool
  finished : Bool
  /-- The clock time of the last tick since playing was started or resumed. -/
  lastTick : Option α
  positions : List (Sample α)
  velocities : List (Sample α)
  /-- The points left out of the two curves. -/
  dropped : Nat
  deriving DecidableEq, Repr

namespace Session

def start (settings : PlaybackSettings α) (derivativeStep : α) (stiffness : Option α) :
    Session α where
  settings := { settings with speed := PlaybackSettings.clampSpeed settings.speed }
  derivativeStep
  stiffness
  cursor := 0
  playing := false
  finished := false
  lastTick := none
  positions := []
  velocities := []
  dropped := 0

def reset (s : Session α) : Session α :=
  { s with
    cursor := 0, playing := false, finished := false, lastTick := none
    positions := [], velocities := [], dropped := 0 }

/-- Starts or resumes; a finished session starts over. -/
def play (s : Session α) : Session α :=
  { if s.finished then s.reset else s with playing := true, lastTick := none }

omit [Arithmetic α] in
def pause (s : Session α) : Session α := { s with playing := false, lastTick := none }

def toggle (s : Session α) : Session α := if s.playing then s.pause else s.play

def setSpeed (s : Session α) (speed : α) : Session α :=
  { s with settings := { s.settings with speed := PlaybackSettings.clampSpeed speed } }

omit [Arithmetic α] in
def setLooping (s : Session α) (looping : Bool) : Session α :=
  { s with settings := { s.settings with looping } }

def progress (s : Session α) : α := progressAt s.cursor s.settings.horizon

def frame (s : Session α) (f : Signal α) : Frame α :=
  f.frame s.cursor s.derivativeStep s.settings.horizon s.stiffness

/-- Samples both curves up to the cursor. -/
def refill (s : Session α) (f : Signal α) : Session α :=
  let grid := TimeGrid.capped s.cursor s.settings.step s.settings.maxPoints
  let (positions, dropped) := (Samples.start f grid .position s.derivativeStep).collect
  let (velocities, dropped') := (Samples.start f grid .velocity s.derivativeStep).collect
  { s with positions, velocities, dropped := dropped + dropped' }

/-- The clock time since the last tick, zero if either is unknown or the clock goes back. -/
def elapsed (s : Session α) (now : α) : α :=
  match s.lastTick with
  | some last => if Arithmetic.isFinite now then Arithmetic.larger (now - last) 0 else 0
  | none => 0

/-- Moves the cursor by the time that has passed. -/
def advance (s : Session α) (now : α) : Session α :=
  { s with
    cursor := s.cursor + s.elapsed now * s.settings.speed
    lastTick := if Arithmetic.isFinite now then some now else s.lastTick }

/-- Whether the cursor has come to the horizon; one that is undefined is always reached. -/
def atHorizon (s : Session α) : Bool :=
  decide (s.settings.horizon ≤ s.cursor) || Arithmetic.isUndefined s.settings.horizon

/-- Stops for good at the horizon. -/
def finish (s : Session α) : Session α :=
  { s with
    cursor := Arithmetic.larger s.settings.horizon 0
    playing := false, finished := true, lastTick := none }

/-- Follows the clock to `now`. At the horizon a looping session starts over. -/
def tick (s : Session α) (f : Signal α) (now : α) : Session α × TickOutcome α :=
  if !s.playing then (s, .paused)
  else
    let moved := s.advance now
    if moved.atHorizon then
      if s.settings.looping && decide (0 < s.settings.horizon) then
        let shown := { moved with cursor := 0 }.refill f
        (shown, .advanced (shown.frame f))
      else
        let shown := moved.finish.refill f
        (shown, .finished (shown.frame f))
    else
      let shown := moved.refill f
      (shown, .advanced (shown.frame f))

inductive Event (α : Type) where
  | play
  | pause
  | toggle
  | reset
  | setSpeed (speed : α)
  | setLooping (looping : Bool)
  | tick (f : Signal α) (now : α)

/-- The session after an event, and what a tick did. -/
def apply (s : Session α) : Event α → Session α × Option (TickOutcome α)
  | .play => (s.play, none)
  | .pause => (s.pause, none)
  | .toggle => (s.toggle, none)
  | .reset => (s.reset, none)
  | .setSpeed speed => (s.setSpeed speed, none)
  | .setLooping looping => (s.setLooping looping, none)
  | .tick f now => ((s.tick f now).1, some (s.tick f now).2)

end Session

end Oscillator
