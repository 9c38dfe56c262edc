import Oscillator.Proofs.Exact.Numbers
import Oscillator.Proofs.Playback.Run

/-! # Sessions that can be reached

Whatever is done to a session, and in whatever order: the cursor stays between zero and the horizon,
a session that has stopped has no clock time to go on from, one that has finished stands at the
horizon, and the curves are those of the signal shown last, up to the cursor.
-/
namespace Oscillator

open Exact

namespace Exact

theorem clamp_real {x lo hi : ℝ} (h : lo ≤ hi) :
    Arithmetic.clamp (real x) (real lo) (real hi) = real (max lo (min x hi)) := by
  unfold Arithmetic.clamp
  by_cases hlo : x < lo
  · simp [hlo, min_eq_left (hlo.le.trans h), max_eq_left hlo.le]
  · by_cases hhi : hi < x
    · simp [hlo, hhi, min_eq_right hhi.le, max_eq_right h]
    · simp [hlo, hhi, min_eq_left (not_lt.mp hhi), max_eq_right (not_lt.mp hlo)]

end Exact

namespace PlaybackSettings

/-- The speed that playing takes on when another is asked for. -/
noncomputable def nearestSpeed : Exact → ℝ
  | real x => max 0.1 (min x 3.0)
  | undefined => 1

theorem clampSpeed_eq (x : Exact) : clampSpeed x = real (nearestSpeed x) := by
  cases x with
  | real x =>
    have hbounds : (0.1 : ℝ) ≤ 3.0 := by norm_num
    have hmax : (3.0 : ℝ) = 3 := by norm_num
    simpa [clampSpeed, minSpeed, maxSpeed, nearestSpeed, hmax] using clamp_real (x := x) hbounds
  | undefined => simp [clampSpeed, nearestSpeed]

theorem le_nearestSpeed (x : Exact) : 0.1 ≤ nearestSpeed x := by
  cases x with
  | real x => exact le_max_left _ _
  | undefined => norm_num [nearestSpeed]

theorem nearestSpeed_le (x : Exact) : nearestSpeed x ≤ 3 := by
  cases x with
  | real x => exact max_le (by norm_num) ((min_le_right _ _).trans (by norm_num))
  | undefined => norm_num [nearestSpeed]

end PlaybackSettings

namespace Session

variable {s m : Session Exact} {f : Signal Exact} {now : Exact} {done : Bool} {horizon : ℝ}

/-- The cursor is in range and at the horizon if the session has finished, the speed is within its
bounds, and a clock time is only kept while playing. -/
structure IsValid (s : Session Exact) (horizon : ℝ) : Prop where
  horizon_eq : s.settings.horizon = real horizon
  cursor : ∃ c, s.cursor = real c ∧ 0 ≤ c ∧ c ≤ max horizon 0
  speed : ∃ v, s.settings.speed = real v ∧ 0.1 ≤ v ∧ v ≤ 3
  lastTick : ∀ t, s.lastTick = some t → Arithmetic.isFinite t = true
  stopped : s.playing = false → s.lastTick = none
  finished : s.finished = true → s.playing = false ∧ s.cursor = real (max horizon 0)

theorem elapsed_nonneg (h : ∀ t, s.lastTick = some t → Arithmetic.isFinite t = true) (now : Exact) :
    ∃ d, s.elapsed now = real d ∧ 0 ≤ d := by
  unfold elapsed
  cases hlast : s.lastTick with
  | none => exact ⟨0, by simp, le_rfl⟩
  | some last =>
    obtain ⟨a, rfl⟩ := isFinite_iff.mp (h last hlast)
    cases now with
    | real b => exact ⟨max (b - a) 0, by simp [larger_real], le_max_right _ _⟩
    | undefined => exact ⟨0, by simp, le_rfl⟩

namespace IsValid

theorem start (settings : PlaybackSettings Exact) (horizon : ℝ) (derivativeStep : Exact)
    (stiffness : Option Exact) :
    (Session.start { settings with horizon := real horizon } derivativeStep stiffness).IsValid
      horizon where
  horizon_eq := rfl
  cursor := ⟨0, by simp [Session.start], le_rfl, le_max_right _ _⟩
  speed := ⟨_, PlaybackSettings.clampSpeed_eq _, PlaybackSettings.le_nearestSpeed _,
    PlaybackSettings.nearestSpeed_le _⟩
  lastTick := by simp [Session.start]
  stopped _ := rfl
  finished h := by cases h

theorem reset (h : s.IsValid horizon) : s.reset.IsValid horizon where
  horizon_eq := h.horizon_eq
  cursor := ⟨0, by simp [Session.reset], le_rfl, le_max_right _ _⟩
  speed := h.speed
  lastTick := by simp [Session.reset]
  stopped _ := rfl
  finished h := by cases h

theorem pause (h : s.IsValid horizon) : s.pause.IsValid horizon where
  horizon_eq := h.horizon_eq
  cursor := h.cursor
  speed := h.speed
  lastTick := by simp [Session.pause]
  stopped _ := rfl
  finished hf := ⟨rfl, (h.finished hf).2⟩

theorem play (h : s.IsValid horizon) : s.play.IsValid horizon := by
  rcases s.play_cases with ⟨-, hp⟩ | ⟨hf, hp⟩
  · rw [hp]
    exact ⟨h.horizon_eq, h.reset.cursor, h.speed, h.reset.lastTick, by simp, by simp [Session.reset]⟩
  · rw [hp]
    exact ⟨h.horizon_eq, h.cursor, h.speed, by simp, by simp, by simp [hf]⟩

theorem setSpeed (h : s.IsValid horizon) (x : Exact) : (s.setSpeed x).IsValid horizon where
  horizon_eq := h.horizon_eq
  cursor := h.cursor
  speed := ⟨_, PlaybackSettings.clampSpeed_eq x, PlaybackSettings.le_nearestSpeed x,
    PlaybackSettings.nearestSpeed_le x⟩
  lastTick := h.lastTick
  stopped := h.stopped
  finished := h.finished

theorem setLooping (h : s.IsValid horizon) (looping : Bool) :
    (s.setLooping looping).IsValid horizon :=
  ⟨h.horizon_eq, h.cursor, h.speed, h.lastTick, h.stopped, h.finished⟩

theorem refill (h : s.IsValid horizon) (f : Signal Exact) : (s.refill f).IsValid horizon :=
  ⟨h.horizon_eq, h.cursor, h.speed, h.lastTick, h.stopped, h.finished⟩

/-- Time does not run backwards. -/
theorem exists_advance_cursor (h : s.IsValid horizon) (now : Exact) :
    ∃ c, (s.advance now).cursor = real c ∧ 0 ≤ c := by
  obtain ⟨c, hc, hpos, -⟩ := h.cursor
  obtain ⟨v, hv, hslow, -⟩ := h.speed
  obtain ⟨d, hd, hd'⟩ := elapsed_nonneg h.lastTick now
  refine ⟨c + d * v, by simp [advance, hc, hv, hd], ?_⟩
  have : 0 ≤ v := le_trans (by norm_num) hslow
  positivity

theorem advance_lastTick (h : s.IsValid horizon) (now : Exact) :
    ∀ t, (s.advance now).lastTick = some t → Arithmetic.isFinite t = true := by
  intro t ht
  simp only [advance] at ht
  split at ht
  case isTrue hfinite =>
    cases ht
    exact hfinite
  case isFalse => exact h.lastTick t ht

theorem atHorizon_iff (h : s.IsValid horizon) {c : ℝ} (hc : m.cursor = real c)
    (hm : m.settings = s.settings) : m.atHorizon = true ↔ horizon ≤ c := by
  simp [atHorizon, hc, hm, h.horizon_eq]

theorem unfinished (h : s.IsValid horizon) (hp : s.playing = true) : s.finished = false := by
  rw [← Bool.not_eq_true]
  intro hf
  simp [(h.finished hf).1] at hp

theorem moves (h : s.IsValid horizon) (hp : s.playing = true) (hm : s.Moves now m done) :
    m.IsValid horizon := by
  have hplaying : (s.advance now).playing = true := hp
  have hunfinished : s.finished ≠ true := by simp [h.unfinished hp]
  cases hm with
  | inside hend =>
    obtain ⟨c, hc, hpos⟩ := h.exists_advance_cursor now
    have hlt : c < horizon := by
      rw [← not_le, ← h.atHorizon_iff hc rfl, hend]
      simp
    exact ⟨h.horizon_eq, ⟨c, hc, hpos, hlt.le.trans (le_max_left _ _)⟩, h.speed,
      h.advance_lastTick now, by simp [hplaying], fun hf => absurd hf hunfinished⟩
  | wrapped =>
    exact ⟨h.horizon_eq, ⟨0, by simp, le_rfl, le_max_right _ _⟩, h.speed,
      h.advance_lastTick now, by simp [hplaying], fun hf => absurd hf hunfinished⟩
  | finished =>
    have hcursor : (s.advance now).finish.cursor = real (max horizon 0) := by
      change Arithmetic.larger s.settings.horizon 0 = _
      rw [h.horizon_eq, ofNat_eq, larger_real, Nat.cast_zero]
    exact ⟨h.horizon_eq, ⟨_, hcursor, le_max_right _ _, le_rfl⟩, h.speed, by simp [finish],
      fun _ => rfl, fun _ => ⟨rfl, hcursor⟩⟩

theorem tick (h : s.IsValid horizon) (f : Signal Exact) (now : Exact) :
    (s.tick f now).1.IsValid horizon := by
  rcases s.tick_cases f now with ⟨-, ht⟩ | ⟨hp, m, done, hm, ht⟩
  · rw [ht]
    exact h
  · rw [ht]
    exact (h.moves hp hm).refill f

theorem apply (h : s.IsValid horizon) (e : Event Exact) : (s.apply e).1.IsValid horizon := by
  cases e with
  | play => exact h.play
  | pause => exact h.pause
  | toggle =>
    change s.toggle.IsValid horizon
    rcases s.toggle_cases with ⟨-, ht⟩ | ⟨-, ht⟩
    · exact ht ▸ h.pause
    · exact ht ▸ h.play
  | reset => exact h.reset
  | setSpeed speed => exact h.setSpeed speed
  | setLooping looping => exact h.setLooping looping
  | tick f now => exact h.tick f now

theorem run (h : s.IsValid horizon) (events : List (Event Exact)) :
    (s.run events).IsValid horizon := by
  induction events generalizing s with
  | nil => exact h
  | cons e events ih => exact ih (h.apply e)

end IsValid

/-! ## The signal shown last -/

section

variable {α : Type} [Arithmetic α] {s s' : Session α} {f : Signal α} {now : α}
  {events : List (Event α)} {e : Event α}

/-- A signal is that of the latest tick of a run that was not paused. -/
def ShownLast (s : Session α) (events : List (Event α)) (f : Signal α) : Prop :=
  ∃ before now after, events = before ++ .tick f now :: after ∧
    ((s.run before).tick f now).2 ≠ .paused ∧
    ∀ middle g later rest, after = middle ++ .tick g later :: rest →
      ((s.run (before ++ .tick f now :: middle)).tick g later).2 = .paused

theorem ShownLast.of_tick (h : ((s.run events).tick f now).2 ≠ .paused) :
    s.ShownLast (events ++ [.tick f now]) f :=
  ⟨events, now, [], rfl, h, by simp⟩

theorem ShownLast.snoc (h : s.ShownLast events f)
    (he : ∀ g now, e = .tick g now → ((s.run events).tick g now).2 = .paused) :
    s.ShownLast (events ++ [e]) f := by
  obtain ⟨before, now, after, rfl, hshown, hpaused⟩ := h
  refine ⟨before, now, after ++ [e], by simp, hshown, fun middle g later rest hsplit => ?_⟩
  rcases List.eq_nil_or_concat rest with rfl | ⟨rest, last, rfl⟩
  · obtain ⟨rfl, hlast⟩ := List.append_inj' hsplit rfl
    exact he g later (List.singleton_inj.mp hlast)
  · refine hpaused middle g later rest ?_
    rw [List.concat_eq_append, ← List.cons_append, ← List.append_assoc] at hsplit
    exact (List.append_inj' hsplit rfl).1

/-- Two sessions hold the same buffers and would sample them on the same grid. -/
structure SameCurves (s s' : Session α) : Prop where
  positions : s.positions = s'.positions
  velocities : s.velocities = s'.velocities
  dropped : s.dropped = s'.dropped
  grid : s.grid = s'.grid
  derivativeStep : s.derivativeStep = s'.derivativeStep

theorem SameCurves.shows (h : s.SameCurves s') (hs : s'.Shows f) : s.Shows f := by
  obtain ⟨hp, hv, hd⟩ := hs
  rw [← h.positions, ← h.velocities, ← h.dropped, ← h.grid, ← h.derivativeStep] at *
  exact ⟨hp, hv, hd⟩

/-- Buffers are only cleared or filled as a whole. -/
theorem apply_curves (he : ∀ g now, e = .tick g now → (s.tick g now).2 = .paused) :
    (s.apply e).1.IsCleared ∨ (s.apply e).1.SameCurves s := by
  have hplay : s.play.IsCleared ∨ s.play.SameCurves s := by
    rcases s.play_cases with ⟨-, hp⟩ | ⟨-, hp⟩
    · exact .inl (hp ▸ ⟨rfl, rfl, rfl⟩)
    · exact .inr (hp ▸ ⟨rfl, rfl, rfl, rfl, rfl⟩)
  cases e with
  | play => exact hplay
  | pause => exact .inr ⟨rfl, rfl, rfl, rfl, rfl⟩
  | toggle =>
    change s.toggle.IsCleared ∨ s.toggle.SameCurves s
    rcases s.toggle_cases with ⟨-, ht⟩ | ⟨-, ht⟩
    · exact .inr (ht ▸ ⟨rfl, rfl, rfl, rfl, rfl⟩)
    · exact ht ▸ hplay
  | reset => exact .inl ⟨rfl, rfl, rfl⟩
  | setSpeed speed => exact .inr ⟨rfl, rfl, rfl, rfl, rfl⟩
  | setLooping looping => exact .inr ⟨rfl, rfl, rfl, rfl, rfl⟩
  | tick g now =>
    have hstopped := tick_eq_paused_iff.mp (he g now rfl)
    exact .inr (by simp only [apply, tick, hstopped]; exact ⟨rfl, rfl, rfl, rfl, rfl⟩)

theorem tick_shows (h : (s.tick f now).2 ≠ .paused) : (s.tick f now).1.Shows f := by
  rcases s.tick_cases f now with ⟨-, ht⟩ | ⟨-, m, done, -, ht⟩
  · simp [ht] at h
  · rw [ht]
    exact m.shows_refill f

theorem run_curves (hs : s.IsCleared) (events : List (Event α)) :
    (s.run events).IsCleared ∨ ∃ f, s.ShownLast events f ∧ (s.run events).Shows f := by
  induction events using List.reverseRecOn with
  | nil => exact .inl hs
  | append_singleton events e ih =>
    rw [run_append]
    by_cases he : ∀ g now, e = .tick g now → ((s.run events).tick g now).2 = .paused
    · rcases apply_curves he with hc | hc
      · exact .inl hc
      · rcases ih with ⟨hp, hv, hd⟩ | ⟨f, hlast, hf⟩
        · exact .inl ⟨hc.positions.trans hp, hc.velocities.trans hv, hc.dropped.trans hd⟩
        · exact .inr ⟨f, hlast.snoc he, hc.shows hf⟩
    · simp only [not_forall, exists_prop] at he
      obtain ⟨g, now, rfl, hshown⟩ := he
      exact .inr ⟨g, .of_tick hshown, tick_shows hshown⟩

end

/-- A session that any events have led to is valid, and shows nothing or the curves of the signal of
the latest tick that was not paused. A tick while it plays fills them. -/
theorem run_isValid (settings : PlaybackSettings Exact) (horizon : ℝ) (derivativeStep : Exact)
    (stiffness : Option Exact) (events : List (Event Exact)) :
    let s := start { settings with horizon := real horizon } derivativeStep stiffness
    (s.run events).IsValid horizon ∧
      ((s.run events).IsCleared ∨ ∃ f, s.ShownLast events f ∧ (s.run events).Shows f) ∧
      ((s.run events).playing = true → ∀ f now, ((s.run events).tick f now).1.Shows f) := by
  intro s
  refine ⟨(IsValid.start settings horizon derivativeStep stiffness).run events,
    run_curves ⟨rfl, rfl, rfl⟩ events, fun hp f now => tick_shows fun hpaused => ?_⟩
  rw [tick_eq_paused_iff, hp] at hpaused
  cases hpaused

end Session

end Oscillator
