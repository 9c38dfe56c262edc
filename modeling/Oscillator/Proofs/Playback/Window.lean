import Oscillator.Proofs.Playback.Reached
import Oscillator.Proofs.Sampling.Window

/-! # What a session reads

The cursor of a session stays between zero and the horizon, so its curves and its readings look at the same
times of a signal as a grid with that bound does. Two signals that agree there cannot be told apart.
-/
namespace Oscillator

open Exact

namespace Session

section

variable {α : Type} [Arithmetic α] {s m : Session α} {now : α} {done : Bool}

theorem Moves.derivativeStep (hm : s.Moves now m done) : m.derivativeStep = s.derivativeStep := by
  cases hm <;> rfl

theorem apply_derivativeStep (s : Session α) (e : Event α) :
    (s.apply e).1.derivativeStep = s.derivativeStep := by
  have hplay : s.play.derivativeStep = s.derivativeStep := by
    rcases s.play_cases with ⟨-, hp⟩ | ⟨-, hp⟩
    · rw [hp]
      rfl
    · rw [hp]
  cases e with
  | play => exact hplay
  | toggle =>
    change s.toggle.derivativeStep = _
    rcases s.toggle_cases with ⟨-, ht⟩ | ⟨-, ht⟩
    · rw [ht]
      rfl
    · rw [ht, hplay]
  | tick f now =>
    change (s.tick f now).1.derivativeStep = _
    rcases s.tick_cases f now with ⟨-, ht⟩ | ⟨-, m, done, hm, ht⟩
    · rw [ht]
    · rw [ht]
      exact hm.derivativeStep
  | _ => rfl

end

variable {s : Session Exact} {f g : Signal Exact} {bound h : ℝ}

/-- A session with a horizon and a derivative step that does not leave the times before the horizon. -/
structure IsWithin (s : Session Exact) (bound h : ℝ) : Prop extends IsValid s bound where
  derivativeStep : s.derivativeStep = real h

namespace IsWithin

theorem apply (hs : s.IsWithin bound h) (e : Event Exact) : (s.apply e).1.IsWithin bound h :=
  ⟨hs.toIsValid.apply e, (s.apply_derivativeStep e).trans hs.derivativeStep⟩

theorem exists_cursor (hs : s.IsWithin bound h) (hb : 0 ≤ bound) :
    ∃ c, s.cursor = real c ∧ 0 ≤ c ∧ c ≤ bound := by
  obtain ⟨c, hc, hpos, hle⟩ := hs.cursor
  exact ⟨c, hc, hpos, max_eq_left hb ▸ hle⟩

section

variable (hs : s.IsWithin bound h) (hb : 0 ≤ bound) (hfg : f.AgreeUpTo g (bound + 3 * max h 0))

include hs hb hfg

theorem frame_eq : s.frame f = s.frame g := by
  obtain ⟨c, hc, hpos, hle⟩ := hs.exists_cursor hb
  simp only [Session.frame, Signal.frame, hc, hs.derivativeStep, hfg.apply_of_le hpos hle,
    hfg.derivatives?_of_le hpos hle]

theorem refill_eq : s.refill f = s.refill g := by
  obtain ⟨c, hc, -, hle⟩ := hs.exists_cursor hb
  have hcurve (channel : Channel) :
      (Samples.start f (.capped (real c) s.settings.step s.settings.maxPoints) channel (real h)).collect =
        (Samples.start g (.capped (real c) s.settings.step s.settings.maxPoints) channel (real h)).collect :=
    (hfg.mono (by gcongr)).collect_eq (.capped ..) (TimeGrid.capped_bound ..) channel
  simp only [refill, hc, hs.derivativeStep, hcurve]

theorem tick_eq (now : Exact) : s.tick f now = s.tick g now := by
  rcases s.tick_cases f now with ⟨hp, ht⟩ | ⟨hp, m, done, hm, ht⟩
  · rw [ht]
    simp [tick, hp]
  · have hm' : m.IsWithin bound h := ⟨hs.moves hp hm, hm.derivativeStep.trans hs.derivativeStep⟩
    rw [ht, hm.tick_eq hp g, hm'.frame_eq hb hfg, hm'.refill_eq hb hfg]

end

end IsWithin

theorem IsWithin.run (hs : s.IsWithin bound h) (events : List (Event Exact)) :
    (s.run events).IsWithin bound h := by
  induction events generalizing s with
  | nil => exact hs
  | cons e events ih => exact ih (hs.apply e)

end Session

end Oscillator
