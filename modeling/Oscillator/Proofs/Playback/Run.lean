import Mathlib.Data.List.ReduceOption
import Oscillator.Playback

/-! # Runs of a session

Sessions under any sequence of events. What a tick can do is said once: a session that does not play
stays as it is, and one that plays moves its cursor and then samples both curves up to it.
-/
namespace Oscillator

variable {α : Type} [Arithmetic α]

/-- The points of a grid at which a function is finite, in order. -/
def TimeGrid.finiteSamples (g : TimeGrid α) (value : α → α) : List (Sample α) :=
  ((List.range g.count).map fun i => Sample.mk (g.time i) (value (g.time i))).filter fun p =>
    Arithmetic.isFinite p.value

namespace Samples

variable (f : Signal α) (g : TimeGrid α) (channel : Channel) (derivativeStep : α)

/-- A channel shows the signal itself or its numerical velocity. -/
theorem finiteSamples_channelValue :
    g.finiteSamples (start f g channel derivativeStep).channelValue = match channel with
      | .position => g.finiteSamples f
      | .velocity => g.finiteSamples fun t => (f.velocity? t derivativeStep).getD Arithmetic.undefined := by
  cases channel <;> rfl

/-- A pass from the start reads every finite point once and counts the others. -/
theorem collect_eq_finiteSamples :
    (start f g channel derivativeStep).collect.1 =
        g.finiteSamples (start f g channel derivativeStep).channelValue ∧
      (start f g channel derivativeStep).collect.1.length +
        (start f g channel derivativeStep).collect.2 = g.count := by
  set s := start f g channel derivativeStep
  have hat : s.at? = Option.guard (fun p => Arithmetic.isFinite p.value) ∘
      fun i => Sample.mk (g.time i) (s.channelValue (g.time i)) := rfl
  constructor
  · change ((List.range' 0 g.count).map s.at?).filterMap id = _
    rw [List.filterMap_map, Function.id_comp, hat, ← List.filterMap_map, List.filterMap_eq_filter,
      ← List.range_eq_range', TimeGrid.finiteSamples]
  · set points := (List.range' 0 g.count).map s.at? with hpoints
    change (points.filterMap id).length + (0 + (points.filter (·.isNone)).length) = g.count
    have hlength : points.length = g.count := by rw [hpoints, List.length_map, List.length_range']
    rw [List.length_filterMap_eq_countP, ← List.countP_eq_length_filter, Nat.zero_add, ← hlength,
      List.length_eq_countP_add_countP Option.isSome]
    exact congrArg (_ + ·) (List.countP_congr fun p _ => by cases p <;> simp)

end Samples

namespace Session

variable {s m : Session α} {f : Signal α} {now : α}

/-- The session after events. -/
def run (s : Session α) (events : List (Event α)) : Session α :=
  events.foldl (fun s e => (s.apply e).1) s

/-- What the ticks of a run did. -/
def outcomes (s : Session α) : List (Event α) → List (TickOutcome α)
  | [] => []
  | e :: events => (s.apply e).2.toList ++ outcomes (s.apply e).1 events

@[simp] theorem run_nil (s : Session α) : s.run [] = s := rfl

@[simp] theorem run_cons (s : Session α) (e : Event α) (events : List (Event α)) :
    s.run (e :: events) = (s.apply e).1.run events := rfl

@[simp] theorem run_append (s : Session α) (events events' : List (Event α)) :
    s.run (events ++ events') = (s.run events).run events' := List.foldl_append

theorem play_cases (s : Session α) :
    s.finished = true ∧ s.play = { s.reset with playing := true } ∨
      s.finished = false ∧ s.play = { s with playing := true, lastTick := none } := by
  cases h : s.finished with
  | false => exact .inr ⟨rfl, by simp [play, h]⟩
  | true => exact .inl ⟨rfl, by simp [play, h]; rfl⟩

theorem toggle_cases (s : Session α) :
    s.playing = true ∧ s.toggle = s.pause ∨ s.playing = false ∧ s.toggle = s.play := by
  cases h : s.playing with
  | false => exact .inr ⟨rfl, by simp [toggle, h]⟩
  | true => exact .inl ⟨rfl, by simp [toggle, h]⟩

/-! ## Curves -/

/-- The grid that the curves are sampled on. -/
def grid (s : Session α) : TimeGrid α := .capped s.cursor s.settings.step s.settings.maxPoints

/-- Both curves of a signal up to the cursor, and the number of points missing in them. -/
structure Shows (s : Session α) (f : Signal α) : Prop where
  positions : s.positions = s.grid.finiteSamples f
  velocities : s.velocities = s.grid.finiteSamples fun t =>
    (f.velocity? t s.derivativeStep).getD Arithmetic.undefined
  dropped : s.positions.length + s.velocities.length + s.dropped = 2 * s.grid.count

/-- No curve is shown. -/
structure IsCleared (s : Session α) : Prop where
  positions : s.positions = []
  velocities : s.velocities = []
  dropped : s.dropped = 0

theorem shows_refill (s : Session α) (f : Signal α) : (s.refill f).Shows f := by
  obtain ⟨hpos, hposCount⟩ :=
    Samples.collect_eq_finiteSamples f s.grid .position s.derivativeStep
  obtain ⟨hvel, hvelCount⟩ :=
    Samples.collect_eq_finiteSamples f s.grid .velocity s.derivativeStep
  refine ⟨hpos, hvel, ?_⟩
  change _ + _ + (_ + _) = 2 * s.grid.count
  calc _ = _ := Nat.add_add_add_comm ..
    _ = s.grid.count + s.grid.count := congrArg₂ _ hposCount hvelCount
    _ = 2 * s.grid.count := (Nat.two_mul _).symm

/-- Where a clock time takes a playing session, and whether it stops there. -/
inductive Moves (s : Session α) (now : α) : Session α → Bool → Prop where
  | inside (h : (s.advance now).atHorizon = false) : Moves s now (s.advance now) false
  | wrapped (h : (s.advance now).atHorizon = true) (hl : s.settings.looping = true)
    (hp : 0 < s.settings.horizon) : Moves s now { s.advance now with cursor := 0 } false
  | finished (h : (s.advance now).atHorizon = true)
    (hn : ¬(s.settings.looping = true ∧ 0 < s.settings.horizon)) :
    Moves s now (s.advance now).finish true

theorem Moves.tick_eq {done : Bool} (hm : s.Moves now m done) (hp : s.playing = true) (f : Signal α) :
    s.tick f now =
      (m.refill f, if done = true then .finished (m.frame f) else .advanced (m.frame f)) := by
  cases hm with
  | inside hend =>
    simp [tick, hp, hend]
    rfl
  | wrapped hend hloop hpos =>
    simp [tick, hp, hend, hloop, hpos]
    rfl
  | finished hend hstop =>
    simp [tick, hp, hend, hstop]
    rfl

theorem tick_cases (s : Session α) (f : Signal α) (now : α) :
    s.playing = false ∧ s.tick f now = (s, .paused) ∨
      s.playing = true ∧ ∃ m done, s.Moves now m done ∧ s.tick f now =
        (m.refill f, if done = true then .finished (m.frame f) else .advanced (m.frame f)) := by
  cases hplaying : s.playing with
  | false => exact .inl ⟨rfl, by simp [tick, hplaying]⟩
  | true =>
    have hmoves : ∃ m done, s.Moves now m done := by
      cases hend : (s.advance now).atHorizon with
      | false => exact ⟨_, _, .inside hend⟩
      | true =>
        by_cases hloop : s.settings.looping = true ∧ 0 < s.settings.horizon
        · exact ⟨_, _, .wrapped hend hloop.1 hloop.2⟩
        · exact ⟨_, _, .finished hend hloop⟩
    obtain ⟨m, done, hm⟩ := hmoves
    exact .inr ⟨rfl, m, done, hm, hm.tick_eq hplaying f⟩

theorem tick_eq_paused_iff : (s.tick f now).2 = .paused ↔ s.playing = false := by
  rcases s.tick_cases f now with ⟨hp, ht⟩ | ⟨hp, m, done, -, ht⟩
  · simp [hp, ht]
  · cases done <;> simp [hp, ht]

/-! ## Apart from the curves

Curves are only shown, and nothing that a session does depends on them. -/

def withoutCurves (s : Session α) : Session α :=
  { s with positions := [], velocities := [], dropped := 0 }

theorem tick_withoutCurves (s : Session α) (f : Signal α) (now : α) :
    (s.withoutCurves.tick f now).1.withoutCurves = (s.tick f now).1.withoutCurves ∧
      (s.withoutCurves.tick f now).2 = (s.tick f now).2 := by
  have hmoved : s.withoutCurves.advance now = (s.advance now).withoutCurves := rfl
  have hend : (s.advance now).withoutCurves.atHorizon = (s.advance now).atHorizon := rfl
  have hsettings : s.withoutCurves.settings = s.settings := rfl
  simp only [tick, hmoved, hend, hsettings]
  cases hp : s.playing with
  | false =>
    have hp' : s.withoutCurves.playing = false := hp
    simp only [hp', Bool.not_false, if_true]
    exact ⟨rfl, trivial⟩
  | true =>
    have hp' : s.withoutCurves.playing = true := hp
    simp only [hp', Bool.not_true, Bool.false_eq_true, if_false]
    split
    · split <;> exact ⟨rfl, rfl⟩
    · exact ⟨rfl, rfl⟩

theorem play_withoutCurves (s : Session α) :
    s.withoutCurves.play.withoutCurves = s.play.withoutCurves := by
  have hf : s.withoutCurves.finished = s.finished := rfl
  simp only [play, hf]
  split <;> rfl

theorem apply_withoutCurves (s : Session α) (e : Event α) :
    (s.withoutCurves.apply e).1.withoutCurves = (s.apply e).1.withoutCurves ∧
      (s.withoutCurves.apply e).2 = (s.apply e).2 := by
  cases e with
  | play => exact ⟨s.play_withoutCurves, rfl⟩
  | toggle =>
    refine ⟨?_, rfl⟩
    change s.withoutCurves.toggle.withoutCurves = s.toggle.withoutCurves
    have hp : s.withoutCurves.playing = s.playing := rfl
    simp only [toggle, hp]
    split
    · rfl
    · exact s.play_withoutCurves
  | tick f now =>
    obtain ⟨hs, ho⟩ := s.tick_withoutCurves f now
    exact ⟨hs, congrArg some ho⟩
  | _ => exact ⟨rfl, rfl⟩

theorem run_congr {s' : Session α} (h : s.withoutCurves = s'.withoutCurves) (events : List (Event α)) :
    (s.run events).withoutCurves = (s'.run events).withoutCurves ∧
      s.outcomes events = s'.outcomes events := by
  induction events generalizing s s' with
  | nil => exact ⟨h, rfl⟩
  | cons e events ih =>
    obtain ⟨hs, ho⟩ := s.apply_withoutCurves e
    obtain ⟨hs', ho'⟩ := s'.apply_withoutCurves e
    rw [h] at hs ho
    obtain ⟨hrun, houtcomes⟩ := ih (hs.symm.trans hs')
    exact ⟨hrun, by rw [outcomes, outcomes, houtcomes, ← ho, ho']⟩

end Session

end Oscillator
