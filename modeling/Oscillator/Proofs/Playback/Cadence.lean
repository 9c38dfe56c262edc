import Oscillator.Proofs.Playback.Time

/-! # Ticks in a row

How often the clock ticks on the way makes no difference to where a session gets. So the cursor of a
session is its playing time, whatever the cadence of its ticks.
-/
namespace Oscillator

open Exact

namespace Session

open PlaybackSettings

variable {s : Session Exact} {f g : Signal Exact} {now : Exact} {horizon : ℝ}
  {events : List (Event Exact)} {e : Event Exact}

/-- Ticks of signals at clock times. -/
def ticks (times : List (Signal Exact × ℝ)) : List (Event Exact) :=
  times.map fun (f, t) => .tick f (real t)

section

variable {a b : ℝ} {times : List (Signal Exact × ℝ)}

theorem run_ticks_of_stopped (hp : s.playing = false) (times : List (Signal Exact × ℝ)) :
    s.run (ticks times) = s ∧ ∀ o ∈ s.outcomes (ticks times), o = .paused := by
  induction times with
  | nil => exact ⟨rfl, by simp [ticks, outcomes]⟩
  | cons time times ih =>
    have ht : s.tick time.1 (real time.2) = (s, .paused) := by simp [Session.tick, hp]
    refine ⟨?_, ?_⟩
    · simpa [ticks, Session.apply, ht] using ih.1
    · simpa [ticks, outcomes, Session.apply, ht] using ih.2

/-- The outcome of the last tick that was not paused. -/
def latest? {α : Type} (outcomes : List (TickOutcome α)) : Option (TickOutcome α) :=
  (outcomes.filter fun | .paused => false | _ => true).getLast?

theorem latest?_cons {α : Type} {o o' : TickOutcome α} {os : List (TickOutcome α)}
    (h : latest? os = some o') : latest? (o :: os) = some o' := by
  rw [latest?] at h
  cases o with
  | paused => exact h
  | _ => rw [latest?, List.filter_cons_of_pos rfl, List.getLast?_cons, h, Option.getD_some]

theorem latest?_of_paused {α : Type} {os : List (TickOutcome α)} (h : ∀ o ∈ os, o = .paused) :
    latest? os = none := by
  rw [latest?, List.filter_eq_nil_iff.mpr, List.getLast?_nil]
  intro o ho
  simp [h o ho]

theorem latest?_cons_of_paused {α : Type} {o : TickOutcome α} {os : List (TickOutcome α)}
    (ho : o ≠ .paused) (h : ∀ o ∈ os, o = .paused) : latest? (o :: os) = some o := by
  have hos : (os.filter fun | .paused => false | _ => true) = [] := by
    rw [List.filter_eq_nil_iff]
    intro o ho
    simp [h o ho]
  cases o with
  | paused => exact absurd rfl ho
  | _ => rw [latest?, List.filter_cons_of_pos rfl, hos, List.getLast?_singleton]

/-- Two rows of ticks leave a session in the same state, apart from the curves shown, and both
finish it or neither does. They end with the same outcome, where one that finishes the session is of
one signal. -/
structure SameEnd (s : Session Exact) (times times' : List (Signal Exact × ℝ)) : Prop where
  state : (s.run (ticks times)).withoutCurves = (s.run (ticks times')).withoutCurves
  finished : (∃ frame, .finished frame ∈ s.outcomes (ticks times)) ↔
    ∃ frame, .finished frame ∈ s.outcomes (ticks times')
  latest : ((∃ frame, .finished frame ∈ s.outcomes (ticks times')) →
      ∃ g, ∀ time ∈ times ++ times', time.1 = g) →
    latest? (s.outcomes (ticks times)) = latest? (s.outcomes (ticks times'))

theorem SameEnd.of_stopped (hp : s.playing = false) (times times' : List (Signal Exact × ℝ)) :
    s.SameEnd times times' := by
  obtain ⟨hs, ho⟩ := run_ticks_of_stopped hp times
  obtain ⟨hs', ho'⟩ := run_ticks_of_stopped hp times'
  have hnone {os : List (TickOutcome Exact)} (h : ∀ o ∈ os, o = .paused) :
      ¬∃ frame, .finished frame ∈ os := by
    rintro ⟨frame, hf⟩
    cases h _ hf
  exact ⟨by rw [hs, hs'], iff_of_false (hnone ho) (hnone ho'), fun _ => by
    rw [latest?_of_paused ho, latest?_of_paused ho']⟩

theorem run_ticks_cons (time : Signal Exact × ℝ) (times : List (Signal Exact × ℝ)) :
    s.run (ticks (time :: times)) = (s.tick time.1 (real time.2)).1.run (ticks times) := rfl

theorem outcomes_ticks_cons (time : Signal Exact × ℝ) (times : List (Signal Exact × ℝ)) :
    s.outcomes (ticks (time :: times)) = (s.tick time.1 (real time.2)).2 ::
      (s.tick time.1 (real time.2)).1.outcomes (ticks times) := rfl

namespace IsValid

variable (h : s.IsValid horizon) {t : ℝ} (hlast : s.lastTick = some (real a))

include hlast in
theorem due_tick (f : Signal Exact) (t : ℝ) : s.due [.tick f (real t)] =
    s.cursor.toReal + max 0 (t - a) * s.settings.speed.toReal := by
  simp [due, intervalsAhead, intervals, intervalFrom?, hlast, duration, Interval.duration, toReal]

include h hlast in
/-- Between two ticks a third one makes no difference to where the cursor gets. -/
theorem advance_advance (hat : a ≤ t) (htb : t ≤ b) :
    (s.advance (real t)).advance (real b) = s.advance (real b) := by
  have hcursor : ((s.advance (real t)).advance (real b)).cursor = (s.advance (real b)).cursor := by
    simp only [advance, elapsed, hlast, isFinite_real, if_true]
    rw [h.cursor_eq, h.speed_eq]
    simp only [real_sub, ofNat_eq, Nat.cast_zero, larger_real, real_mul, real_add,
      max_eq_left (sub_nonneg.mpr hat), max_eq_left (sub_nonneg.mpr htb),
      max_eq_left (sub_nonneg.mpr (hat.trans htb))]
    ring_nf
  exact congrArg (fun c => { s with cursor := c, lastTick := some (real b) }) hcursor

include h hlast in
theorem tick_advance (hp : s.playing = true) (hat : a ≤ t) (htb : t ≤ b) :
    (s.advance (real t)).tick g (real b) = s.tick g (real b) := by
  have hp' : (s.advance (real t)).playing = true := hp
  have hsettings : (s.advance (real t)).settings = s.settings := rfl
  simp only [Session.tick, hp, hp', hsettings, h.advance_advance hlast hat htb, Bool.not_true,
    Bool.false_eq_true, if_false]

include h hlast in
/-- A session that has ticked on the way ticks next as if it had not, apart from the curves. -/
theorem ticks_advance (hp : s.playing = true) (hat : a ≤ t) (htb : t ≤ b) :
    (((s.advance (real t)).refill f).run (ticks [(g, b)])).withoutCurves =
        (s.run (ticks [(g, b)])).withoutCurves ∧
      ((s.advance (real t)).refill f).outcomes (ticks [(g, b)]) = s.outcomes (ticks [(g, b)]) := by
  have htick := h.tick_advance hlast hp hat htb (g := g)
  have hrun : (s.advance (real t)).run (ticks [(g, b)]) = s.run (ticks [(g, b)]) :=
    (run_ticks_cons ..).trans (congrArg (·.1) htick)
  have hout : (s.advance (real t)).outcomes (ticks [(g, b)]) = s.outcomes (ticks [(g, b)]) :=
    (outcomes_ticks_cons ..).trans (congrArg ([·.2]) htick)
  have hcurves : ((s.advance (real t)).refill f).withoutCurves =
      (s.advance (real t)).withoutCurves := rfl
  rw [← hrun, ← hout]
  exact run_congr hcurves _

include h hlast in
/-- A later tick finishes a session that an earlier one would have finished. -/
theorem due_mono (f g : Signal Exact) (htb : t ≤ b) :
    s.due [.tick f (real t)] ≤ s.due [.tick g (real b)] := by
  rw [due_tick hlast, due_tick hlast]
  have := h.speed_nonneg
  gcongr

theorem tick_lastTick (h : (s.tick f (real t)).1.playing = true) :
    (s.tick f (real t)).1.lastTick = some (real t) := by
  rcases Session.tick_cases s f (real t) with ⟨hp, ht⟩ | ⟨-, m, done, hm, ht⟩
  · rw [ht, hp] at h
    cases h
  · rw [ht] at h ⊢
    cases hm with
    | inside => rfl
    | wrapped => rfl
    | finished => cases h

end IsValid

namespace SameEnd

theorem of_advanced {s' : Session Exact} {frame : Frame Exact} {o : TickOutcome Exact} {t : ℝ}
    (ht : s.tick f (real t) = (s', .advanced frame))
    (h : s'.SameEnd (times ++ [(g, b)]) [(g, b)])
    (hstate : (s'.run (ticks [(g, b)])).withoutCurves = (s.run (ticks [(g, b)])).withoutCurves)
    (houtcomes : s'.outcomes (ticks [(g, b)]) = s.outcomes (ticks [(g, b)]))
    (ho : latest? (s.outcomes (ticks [(g, b)])) = some o) :
    s.SameEnd ((f, t) :: (times ++ [(g, b)])) [(g, b)] := by
  have hrun := s.run_ticks_cons (f, t) (times ++ [(g, b)])
  have hout := s.outcomes_ticks_cons (f, t) (times ++ [(g, b)])
  rw [ht] at hrun hout
  refine ⟨?_, ?_, ?_⟩
  · rw [hrun, h.state, hstate]
  · rw [hout, ← houtcomes, ← h.finished]
    simp
  · intro hone
    rw [← houtcomes] at hone
    have hlatest := h.latest fun hf => (hone hf).imp fun signal hsignal time htime =>
      hsignal time (List.mem_cons_of_mem _ htime)
    rw [houtcomes, ho] at hlatest
    rw [hout, latest?_cons hlatest, ho]

theorem of_finished {s' : Session Exact} {t : ℝ}
    (ht : s.tick f (real t) = (s'.refill f, .finished (s'.frame f)))
    (hstopped : s'.playing = false)
    (ht' : s.tick g (real b) = (s'.refill g, .finished (s'.frame g))) :
    s.SameEnd ((f, t) :: (times ++ [(g, b)])) [(g, b)] := by
  obtain ⟨hstay, hpaused⟩ := run_ticks_of_stopped (s := s'.refill f) hstopped (times ++ [(g, b)])
  have hrun := s.run_ticks_cons (f, t) (times ++ [(g, b)])
  have hout := s.outcomes_ticks_cons (f, t) (times ++ [(g, b)])
  have hrun' := s.run_ticks_cons (g, b) []
  have hout' := s.outcomes_ticks_cons (g, b) []
  rw [ht] at hrun hout
  rw [ht'] at hrun' hout'
  have hfinishes : ∃ frame, .finished frame ∈ s.outcomes (ticks [(g, b)]) := by
    rw [hout']
    exact ⟨_, List.mem_cons_self⟩
  refine ⟨?_, iff_of_true ?_ hfinishes, fun hone => ?_⟩
  · rw [hrun, hstay, hrun']
    rfl
  · rw [hout]
    exact ⟨_, List.mem_cons_self⟩
  · obtain ⟨signal, hsignal⟩ := hone hfinishes
    obtain rfl : f = signal := hsignal (f, t) List.mem_cons_self
    obtain rfl : g = f := hsignal (g, b) (by simp)
    rw [hout, hout', latest?_cons_of_paused (by simp) hpaused]
    rfl

end SameEnd

/-- Extra ticks on the way make no difference. -/
theorem IsValid.sameEnd (h : s.IsValid horizon) (hloop : s.settings.looping = false)
    (hlast : s.playing = true → s.lastTick = some (real a))
    (hs : (a :: (times.map Prod.snd ++ [b])).Pairwise (· ≤ ·)) (g : Signal Exact) :
    s.SameEnd (times ++ [(g, b)]) [(g, b)] := by
  induction times generalizing s a with
  | nil => exact ⟨rfl, Iff.rfl, fun _ => rfl⟩
  | cons time times ih =>
    obtain ⟨f, t⟩ := time
    cases hp : s.playing with
    | false => exact .of_stopped hp _ _
    | true =>
      have hlast := hlast hp
      obtain ⟨hfirst, hs⟩ := List.pairwise_cons.mp hs
      have hat : a ≤ t := hfirst t (by simp)
      have htb : t ≤ b := (List.pairwise_cons.mp hs).1 b (by simp)
      have hu : s.IsUnderway horizon := ⟨h, hloop, h.unfinished hp⟩
      rcases hu.tick_cases f (real t) with ⟨hp', -⟩ | ⟨-, -, ht⟩ | ⟨-, hle, ht⟩
      · simp [hp] at hp'
      · have hv := h.tick f (real t)
        rw [ht] at hv
        obtain ⟨hstate, houtcomes⟩ := h.ticks_advance hlast hp hat htb (f := f) (g := g)
        have hshown : (s.tick g (real b)).2 ≠ .paused := by simp [tick_eq_paused_iff, hp]
        exact .of_advanced ht (ih hv hloop (fun _ => rfl) hs) hstate houtcomes
          (latest?_cons_of_paused hshown (by simp [outcomes]))
      · rcases hu.tick_cases g (real b) with ⟨hp', -⟩ | ⟨-, hlt, -⟩ | ⟨-, -, ht'⟩
        · simp [hp] at hp'
        · exact absurd (hle.trans (h.due_mono hlast f g htb)) hlt.not_ge
        · exact .of_finished ht rfl ht'

end

theorem apply_looping (he : e.Plays) : (s.apply e).1.settings.looping = s.settings.looping := by
  have hplay : s.play.settings.looping = s.settings.looping := by
    rcases s.play_cases with ⟨-, hp⟩ | ⟨-, hp⟩ <;> exact hp ▸ rfl
  cases e with
  | play => exact hplay
  | pause => rfl
  | toggle =>
    change s.toggle.settings.looping = s.settings.looping
    rcases s.toggle_cases with ⟨-, ht⟩ | ⟨-, ht⟩
    · exact ht ▸ rfl
    · exact ht ▸ hplay
  | reset => exact he.elim
  | setSpeed x => rfl
  | setLooping looping => exact he.elim
  | tick f now =>
    change (s.tick f now).1.settings.looping = s.settings.looping
    rcases Session.tick_cases s f now with ⟨-, ht⟩ | ⟨-, m, done, hm, ht⟩
    · rw [ht]
    · rw [ht]
      cases hm <;> rfl

theorem run_looping (he : ∀ e ∈ events, e.Plays) :
    (s.run events).settings.looping = s.settings.looping := by
  induction events generalizing s with
  | nil => rfl
  | cons e events ih =>
    rw [run_cons, ih fun e' he' => he e' (List.mem_cons_of_mem _ he')]
    exact apply_looping (he e List.mem_cons_self)

/-- A new session that will stop at a horizon. -/
noncomputable def startOnce (settings : PlaybackSettings Exact) (horizon : ℝ) (derivativeStep : Exact)
    (stiffness : Option Exact) : Session Exact :=
  start { settings with horizon := real horizon, looping := false } derivativeStep stiffness

theorem startOnce_isUnderway (settings : PlaybackSettings Exact) (horizon : ℝ)
    (derivativeStep : Exact) (stiffness : Option Exact) :
    (startOnce settings horizon derivativeStep stiffness).IsUnderway horizon :=
  ⟨.start { settings with looping := false } horizon derivativeStep stiffness, rfl, rfl⟩

theorem startOnce_due (settings : PlaybackSettings Exact) (horizon : ℝ) (derivativeStep : Exact)
    (stiffness : Option Exact) (events : List (Event Exact)) :
    (startOnce settings horizon derivativeStep stiffness).due events =
      playedTime (nearestSpeed settings.speed) events := by
  simp [startOnce, start, due, intervalsAhead, playedTime, clampSpeed_eq, toReal]

theorem IsValid.cursor_of_finished (h : s.IsValid horizon) {frame : Frame Exact}
    (hf : (s.tick f now).2 = .finished frame) :
    (s.tick f now).1.cursor = real (max horizon 0) ∧ frame.time = real (max horizon 0) := by
  rcases Session.tick_cases s f now with ⟨-, ht⟩ | ⟨hp, m, done, hm, ht⟩
  · simp [ht] at hf
  · rw [ht] at hf ⊢
    cases hm with
    | inside => simp at hf
    | wrapped => simp at hf
    | finished hend hn =>
      have hcursor := ((h.moves hp (.finished hend hn)).finished rfl).2
      simp only [if_true, TickOutcome.finished.injEq] at hf
      rw [← hf]
      exact ⟨hcursor, hcursor⟩

/-- Up to the tick that finishes a session its cursor is the playing time, and the tick that finishes
it is the first one while playing at which that has come to the horizon. Two ticks lead to the same
state and the same outcome with any other ticks between them, in the order of their clock times. -/
theorem cursor_eq_playedTime (settings : PlaybackSettings Exact) (horizon : ℝ)
    (derivativeStep : Exact) (stiffness : Option Exact) {events : List (Event Exact)}
    (he : ∀ e ∈ events, e.Plays) :
    let s := startOnce settings horizon derivativeStep stiffness
    let played := playedTime (nearestSpeed settings.speed)
    (played events < horizon → ∀ frame, .finished frame ∉ s.outcomes events) ∧
    ((∀ frame, .finished frame ∉ s.outcomes events) →
      (s.run events).cursor = real (played events) ∧ ∀ f now,
        ((∃ frame, ((s.run events).tick f now).2 = .finished frame) ↔
          (s.run events).playing = true ∧ horizon ≤ played (events ++ [.tick f now])) ∧
        ∀ frame, ((s.run events).tick f now).2 = .finished frame →
          ((s.run events).tick f now).1.cursor = real (max horizon 0) ∧
            frame.time = real (max horizon 0)) ∧
    ∀ f g a b times, (a :: (times.map Prod.snd ++ [b])).Pairwise (· ≤ ·) →
      (s.run (events ++ [.tick f (real a)])).SameEnd (times ++ [(g, b)]) [(g, b)] := by
  intro s played
  have hs : s.IsUnderway horizon := startOnce_isUnderway ..
  refine ⟨fun hlt => ?_, fun hu => ?_, fun f g a b times hsorted => ?_⟩
  · exact hs.notMem_outcomes_of_due_lt he (by rwa [startOnce_due])
  · obtain ⟨hrun, hdue⟩ := hs.run he hu
    have hplayed (rest : List (Event Exact)) : (s.run events).due rest = played (events ++ rest) := by
      rw [← hdue, startOnce_due]
    refine ⟨?_, fun f now => ⟨?_, fun frame => hrun.toIsValid.cursor_of_finished⟩⟩
    · have hend : (s.run events).due [] = (s.run events).cursor.toReal := by
        simp [due, intervalsAhead, intervals, intervalFrom?, duration]
      rw [hrun.cursor_eq, ← hend, hplayed, List.append_nil]
    · rw [hrun.exists_finished_iff, hplayed]
  · have hloop : (s.run (events ++ [.tick f (real a)])).settings.looping = false := by
      rw [run_looping, hs.looping]
      simpa using fun e h => h.elim (he e) fun h => h ▸ trivial
    refine (hs.toIsValid.run _).sameEnd hloop (fun hp => ?_) hsorted g
    rw [run_append] at hp ⊢
    exact IsValid.tick_lastTick hp

/-- Two units of time at speed 1 and, after a pause and a clock time that is no number, one at
speed 2. -/
noncomputable def pausedEvents (f : Signal Exact) : List (Event Exact) :=
  [.play, .tick f 0, .tick f 2, .pause, .tick f 9, .toggle, .tick f undefined, .tick f 10,
    .setSpeed 2, .tick f 11]

theorem playedTime_pausedEvents (f : Signal Exact) : playedTime 1 (pausedEvents f) = 4 := by
  simp only [pausedEvents, ofNat_eq]
  norm_num [playedTime, intervals, intervalFrom?, duration, Interval.duration, nearestSpeed]

theorem cursor_eq_playedTime_paused :
    (∀ e ∈ pausedEvents id, e.Plays) ∧
      ((startOnce .standard 5 0.01 none).run (pausedEvents id)).cursor = real 4 := by
  have he : ∀ e ∈ pausedEvents id, e.Plays := by simp [pausedEvents, Event.Plays]
  have hspeed : nearestSpeed (standard (α := Exact)).speed = 1 := by
    have hone : (standard (α := Exact)).speed = real 1 := by simp [standard]
    rw [hone]
    norm_num [nearestSpeed]
  obtain ⟨hunfinished, hcursor, -⟩ := cursor_eq_playedTime .standard 5 0.01 none he
  rw [hspeed, playedTime_pausedEvents] at hunfinished hcursor
  exact ⟨he, (hcursor (hunfinished (by norm_num))).1⟩

end Session

end Oscillator
