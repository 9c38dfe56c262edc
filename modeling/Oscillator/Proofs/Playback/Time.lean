import Oscillator.Proofs.Playback.Reached

/-! # Playing time

Where a session stands is told by its clock alone: the cursor has moved by the time between
consecutive ticks while playing, times the speed, and neither pauses nor clock times that are no
numbers count. So a session stops where the playing time reaches the horizon.
-/
namespace Oscillator

open Exact

/-- The number that an exact result is, zero for the undefined one. -/
def Exact.toReal : Exact → ℝ
  | real x => x
  | undefined => 0

namespace Session

open PlaybackSettings

variable {s : Session Exact} {f g : Signal Exact} {now : Exact} {horizon : ℝ}
  {events : List (Event Exact)} {e : Event Exact}

/-- The events of a session that only goes on. -/
def Event.Plays {α : Type} : Event α → Prop
  | .reset | .setLooping _ => False
  | _ => True

/-- Two clock times of consecutive ticks while playing, and the speed at the second. -/
structure Interval where
  first : ℝ
  second : ℝ
  speed : ℝ

/-- The playing time of an interval, none if the clock has gone back. -/
def Interval.duration (i : Interval) : ℝ := max 0 (i.second - i.first) * i.speed

/-- The interval from a tick to the next one, unless playing is started or stopped before. Clock
times that are no numbers are passed over. -/
noncomputable def intervalFrom? (first speed : ℝ) : List (Event Exact) → Option Interval
  | .tick _ (real now) :: _ => some ⟨first, now, speed⟩
  | .tick _ undefined :: events => intervalFrom? first speed events
  | .setSpeed x :: events => intervalFrom? first (nearestSpeed x) events
  | _ => none

/-- The intervals of a session that does or does not play, at a speed. -/
noncomputable def intervals (playing : Bool) (speed : ℝ) : List (Event Exact) → List Interval
  | [] => []
  | .play :: events => intervals true speed events
  | .pause :: events => intervals false speed events
  | .toggle :: events => intervals (!playing) speed events
  | .setSpeed x :: events => intervals playing (nearestSpeed x) events
  | .tick _ (real now) :: events =>
    (if playing = true then (intervalFrom? now speed events).toList else [])
      ++ intervals playing speed events
  | _ :: events => intervals playing speed events

def duration (is : List Interval) : ℝ := (is.map Interval.duration).sum

/-- The playing time of a new session. -/
noncomputable def playedTime (speed : ℝ) (events : List (Event Exact)) : ℝ :=
  duration (intervals false speed events)

theorem nearestSpeed_nonneg (x : Exact) : 0 ≤ nearestSpeed x :=
  le_trans (by norm_num) (le_nearestSpeed x)

theorem speed_of_intervalFrom? {first speed : ℝ} {i : Interval} (hv : 0 ≤ speed)
    (hi : intervalFrom? first speed events = some i) : 0 ≤ i.speed := by
  fun_induction intervalFrom? first speed events with
  | case1 speed _ now events =>
    cases hi
    exact hv
  | case2 speed _ events ih => exact ih hv hi
  | case3 speed x events ih => exact ih (nearestSpeed_nonneg x) hi
  | case4 => cases hi

theorem speed_of_mem_intervals {playing : Bool} {speed : ℝ} (hv : 0 ≤ speed) :
    ∀ i ∈ intervals playing speed events, 0 ≤ i.speed := by
  fun_induction intervals playing speed events with
  | case1 => exact List.forall_mem_nil _
  | case2 playing speed events ih => exact ih hv
  | case3 playing speed events ih => exact ih hv
  | case4 playing speed events ih => exact ih hv
  | case5 playing speed x events ih => exact ih (nearestSpeed_nonneg x)
  | case6 playing speed f now events ih =>
    refine List.forall_mem_append.mpr ⟨fun i hi => ?_, ih hv⟩
    split at hi
    · exact speed_of_intervalFrom? hv (Option.mem_toList.mp hi)
    · cases hi
  | case7 playing speed e events _ _ _ _ _ ih => exact ih hv

theorem duration_nonneg {is : List Interval} (h : ∀ i ∈ is, 0 ≤ i.speed) : 0 ≤ duration is := by
  refine List.sum_nonneg fun d hd => ?_
  obtain ⟨i, hi, rfl⟩ := List.mem_map.mp hd
  exact mul_nonneg (le_max_left _ _) (h i hi)

theorem duration_append (is js : List Interval) :
    duration (is ++ js) = duration is + duration js := by
  simp [duration]

/-- The intervals that are still to come: that of the last tick, and those of the ticks ahead. -/
noncomputable def intervalsAhead (s : Session Exact) (events : List (Event Exact)) : List Interval :=
  let speed := s.settings.speed.toReal
  (s.lastTick.bind fun t => intervalFrom? t.toReal speed events).toList
    ++ intervals s.playing speed events

/-- Where the cursor gets if no horizon is in the way. -/
noncomputable def due (s : Session Exact) (events : List (Event Exact)) : ℝ :=
  s.cursor.toReal + duration (s.intervalsAhead events)

/-- A session on its way to the horizon, where it will stop. -/
structure IsUnderway (s : Session Exact) (horizon : ℝ) : Prop extends IsValid s horizon where
  looping : s.settings.looping = false
  unfinished : s.finished = false

namespace IsValid

theorem cursor_eq (h : s.IsValid horizon) : s.cursor = real s.cursor.toReal := by
  obtain ⟨c, hc, -⟩ := h.cursor
  rw [hc, toReal]

theorem speed_eq (h : s.IsValid horizon) : s.settings.speed = real s.settings.speed.toReal := by
  obtain ⟨v, hv, -⟩ := h.speed
  rw [hv, toReal]

theorem speed_nonneg (h : s.IsValid horizon) : 0 ≤ s.settings.speed.toReal := by
  obtain ⟨v, hv, hslow, -⟩ := h.speed
  rw [hv, toReal]
  exact le_trans (by norm_num) hslow

/-- A tick of a clock moves the cursor to where it is due. -/
theorem advance_cursor (h : s.IsValid horizon) (f : Signal Exact) (now : Exact) :
    (s.advance now).cursor = real (s.due [.tick f now]) := by
  change s.cursor + s.elapsed now * s.settings.speed = _
  rw [h.cursor_eq, h.speed_eq]
  cases hlast : s.lastTick with
  | none =>
    cases now <;>
      simp [elapsed, hlast, due, intervalsAhead, intervals, intervalFrom?, duration, toReal]
  | some t =>
    obtain ⟨a, rfl⟩ := isFinite_iff.mp (h.lastTick t hlast)
    cases now <;> simp [elapsed, hlast, due, intervalsAhead, intervals, intervalFrom?, duration,
      toReal, larger_real, Interval.duration, max_comm]

end IsValid

/-- A session that will stop at the horizon does so at the tick at which the cursor is due there. -/
theorem IsUnderway.tick_cases (h : s.IsUnderway horizon) (f : Signal Exact) (now : Exact) :
    s.playing = false ∧ s.tick f now = (s, .paused) ∨
      s.playing = true ∧ s.due [.tick f now] < horizon ∧
        s.tick f now = ((s.advance now).refill f, .advanced ((s.advance now).frame f)) ∨
      s.playing = true ∧ horizon ≤ s.due [.tick f now] ∧
        s.tick f now =
          ((s.advance now).finish.refill f, .finished ((s.advance now).finish.frame f)) := by
  have hend := h.atHorizon_iff (h.advance_cursor f now) rfl
  rcases Session.tick_cases s f now with ht | ⟨hp, m, done, hm, ht⟩
  · exact .inl ht
  · cases hm with
    | inside hn =>
      rw [hn] at hend
      exact .inr (.inl ⟨hp, by simpa using hend, ht⟩)
    | wrapped _ hl => simp [h.looping] at hl
    | finished hy => exact .inr (.inr ⟨hp, hend.mp hy, ht⟩)

/-- Events lead a session on its way to another one where the same is due as before. -/
structure Leads (s : Session Exact) (events : List (Event Exact)) (s' : Session Exact)
    (horizon : ℝ) : Prop where
  underway : s'.IsUnderway horizon
  due_eq : ∀ rest, s.due (events ++ rest) = s'.due rest

theorem Leads.cons {s' s'' : Session Exact} (h : s.Leads [e] s' horizon)
    (h' : s'.Leads events s'' horizon) : s.Leads (e :: events) s'' horizon :=
  ⟨h'.underway, fun rest => (h.due_eq _).trans (h'.due_eq rest)⟩

namespace IsUnderway

theorem play (h : s.IsUnderway horizon) : s.Leads [.play] s.play horizon := by
  have hplay : s.play = { s with playing := true, lastTick := none } := by
    simp [Session.play, h.unfinished]
  have hv := h.toIsValid.play
  rw [hplay] at hv ⊢
  exact ⟨⟨hv, h.looping, h.unfinished⟩, fun rest => by
    simp [due, intervalsAhead, intervals, intervalFrom?]⟩

theorem pause (h : s.IsUnderway horizon) : s.Leads [.pause] s.pause horizon :=
  ⟨⟨h.toIsValid.pause, h.looping, h.unfinished⟩, fun rest => by
    simp [due, intervalsAhead, intervals, intervalFrom?, Session.pause]⟩

theorem toggle (h : s.IsUnderway horizon) : s.Leads [.toggle] s.toggle horizon := by
  rcases s.toggle_cases with ⟨hp, ht⟩ | ⟨hp, ht⟩
  · rw [ht]
    refine ⟨h.pause.underway, fun rest => ?_⟩
    rw [← h.pause.due_eq]
    simp [due, intervalsAhead, intervals, intervalFrom?, hp]
  · rw [ht]
    refine ⟨h.play.underway, fun rest => ?_⟩
    rw [← h.play.due_eq]
    simp [due, intervalsAhead, intervals, intervalFrom?, hp]

theorem setSpeed (h : s.IsUnderway horizon) (x : Exact) :
    s.Leads [.setSpeed x] (s.setSpeed x) horizon :=
  ⟨⟨h.toIsValid.setSpeed x, h.looping, h.unfinished⟩, fun rest => by
    simp [due, intervalsAhead, intervals, intervalFrom?, Session.setSpeed, clampSpeed_eq, toReal]⟩

end IsUnderway

/-- A clock time that is a number ends one interval and begins the next. -/
theorem intervalsAhead_tick (hp : s.playing = true) (f : Signal Exact) (now : Exact)
    (events : List (Event Exact)) : s.intervalsAhead (.tick f now :: events) =
      s.intervalsAhead [.tick f now] ++ (s.advance now).intervalsAhead events := by
  cases now with
  | undefined =>
    cases hlast : s.lastTick <;> simp [intervalsAhead, intervals, intervalFrom?, advance, hlast]
  | real now =>
    cases hlast : s.lastTick <;>
      simp [intervalsAhead, intervals, intervalFrom?, advance, hlast, hp, toReal]

theorem duration_intervalsAhead_nonneg (hv : 0 ≤ s.settings.speed.toReal)
    (events : List (Event Exact)) : 0 ≤ duration (s.intervalsAhead events) := by
  refine duration_nonneg (List.forall_mem_append.mpr ⟨fun i hi => ?_, speed_of_mem_intervals hv⟩)
  obtain ⟨t, -, ht⟩ := Option.bind_eq_some_iff.mp (Option.mem_toList.mp hi)
  exact speed_of_intervalFrom? hv ht

theorem IsValid.due_advance (h : s.IsValid horizon) (hp : s.playing = true) (f : Signal Exact)
    (now : Exact) (events : List (Event Exact)) :
    s.due (.tick f now :: events) = (s.advance now).due events := by
  rw [due, due, intervalsAhead_tick hp, duration_append, h.advance_cursor f now, toReal, due,
    add_assoc]

namespace IsUnderway

theorem tick (h : s.IsUnderway horizon) (hu : ∀ frame, (s.tick f now).2 ≠ .finished frame) :
    s.Leads [.tick f now] (s.tick f now).1 horizon := by
  have hv := h.toIsValid.tick f now
  rcases h.tick_cases f now with ⟨hp, ht⟩ | ⟨hp, -, ht⟩ | ⟨-, -, ht⟩
  · rw [ht]
    refine ⟨h, fun rest => ?_⟩
    cases now <;> simp [due, intervalsAhead, intervals, h.stopped hp, hp]
  · rw [ht] at hv ⊢
    exact ⟨⟨hv, h.looping, h.unfinished⟩, h.toIsValid.due_advance hp f now⟩
  · exact absurd (congrArg Prod.snd ht) (hu _)

theorem apply (h : s.IsUnderway horizon) (he : e.Plays)
    (hu : ∀ frame, .finished frame ∉ (s.apply e).2.toList) :
    s.Leads [e] (s.apply e).1 horizon := by
  cases e with
  | play => exact h.play
  | pause => exact h.pause
  | toggle => exact h.toggle
  | reset => exact he.elim
  | setSpeed x => exact h.setSpeed x
  | setLooping looping => exact he.elim
  | tick f now => exact h.tick fun frame ht => hu frame (List.mem_singleton.mpr ht.symm)

theorem run (h : s.IsUnderway horizon) (he : ∀ e ∈ events, e.Plays)
    (hu : ∀ frame, .finished frame ∉ s.outcomes events) :
    s.Leads events (s.run events) horizon := by
  induction events generalizing s with
  | nil => exact ⟨h, fun rest => rfl⟩
  | cons e events ih =>
    simp only [outcomes, List.mem_append, not_or, forall_and] at hu
    obtain ⟨hfirst, hrest⟩ := hu
    have hstep := h.apply (he e List.mem_cons_self) hfirst
    exact hstep.cons (ih hstep.underway (fun e' he' => he e' (List.mem_cons_of_mem _ he')) hrest)

theorem exists_finished_iff (h : s.IsUnderway horizon) (f : Signal Exact) (now : Exact) :
    (∃ frame, (s.tick f now).2 = .finished frame) ↔
      s.playing = true ∧ horizon ≤ s.due [.tick f now] := by
  rcases h.tick_cases f now with ⟨hp, ht⟩ | ⟨hp, hlt, ht⟩ | ⟨hp, hle, ht⟩
  · simp [ht, hp]
  · simp [ht, hlt]
  · simp [ht, hp, hle]

/-- What is due at the first tick is due at least at the end. -/
theorem due_tick_le (h : s.IsUnderway horizon) (hp : s.playing = true) (f : Signal Exact)
    (now : Exact) (events : List (Event Exact)) :
    s.due [.tick f now] ≤ s.due (.tick f now :: events) := by
  have hahead := duration_intervalsAhead_nonneg (s := s.advance now) h.speed_nonneg events
  calc s.due [.tick f now] = (s.advance now).cursor.toReal := by rw [h.advance_cursor f now, toReal]
    _ ≤ (s.advance now).due events := le_add_of_nonneg_right hahead
    _ = s.due (.tick f now :: events) := (h.due_advance hp f now events).symm

/-- A session does not finish as long as it is not due to. -/
theorem notMem_outcomes_of_due_lt (h : s.IsUnderway horizon) (he : ∀ e ∈ events, e.Plays)
    (hlt : s.due events < horizon) : ∀ frame, .finished frame ∉ s.outcomes events := by
  induction events generalizing s with
  | nil => exact fun frame => List.not_mem_nil
  | cons e events ih =>
    have hfirst : ∀ frame, .finished frame ∉ (s.apply e).2.toList := by
      intro frame hf
      cases e with
      | tick f now =>
        have ht : (s.tick f now).2 = .finished frame := (List.mem_singleton.mp hf).symm
        obtain ⟨hp, hle⟩ := (h.exists_finished_iff f now).mp ⟨frame, ht⟩
        exact (hle.trans (h.due_tick_le hp f now events)).not_gt hlt
      | _ => cases hf
    have hstep := h.apply (he e List.mem_cons_self) hfirst
    have hrest := ih hstep.underway (fun e' he' => he e' (List.mem_cons_of_mem _ he'))
      (hstep.due_eq events ▸ hlt)
    intro frame hf
    exact (List.mem_append.mp hf).elim (hfirst frame) (hrest frame)

end IsUnderway

end Session

end Oscillator
