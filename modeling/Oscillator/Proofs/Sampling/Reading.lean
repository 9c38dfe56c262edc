import Mathlib.Logic.Function.Iterate
import Oscillator.Proofs.Playback.Run
import Oscillator.Proofs.Sampling.Covering

/-! # Reading samples

A pass over a grid moves point by point. Samples can be read one by one and the rest collected at any
time, and together these are the finite points of the grid. At every moment the points that were passed
are samples or counted as skipped.
-/
namespace Oscillator

namespace Samples

variable {α : Type} [Arithmetic α] {s : Samples α}

/-- One more point is passed, and counted if it is no sample. -/
def step (s : Samples α) : Samples α :=
  if s.index < s.grid.count then
    match s.at? s.index with
    | some _ => { s with index := s.index + 1 }
    | none => { s with index := s.index + 1, skipped := s.skipped + 1 }
  else s

/-- The samples of `k` reads in a row, and the pass after them. -/
def read (s : Samples α) : ℕ → List (Sample α) × Samples α
  | 0 => ([], s)
  | k + 1 => (s.next.1.toList ++ (s.next.2.read k).1, (s.next.2.read k).2)

/-! ## Points -/

theorem step_of_le (h : s.grid.count ≤ s.index) : s.step = s := if_neg (Nat.not_lt.mpr h)

theorem step_index (h : s.index < s.grid.count) : s.step.index = s.index + 1 := by
  rw [step, if_pos h]
  split <;> rfl

/-- Nothing but the place and the count of skipped points changes. -/
theorem step_eq (s : Samples α) :
    s.step = { s with index := s.step.index, skipped := s.step.skipped } := by
  unfold step
  split
  · split <;> rfl
  · rfl

theorem step_grid (s : Samples α) : s.step.grid = s.grid := by rw [step_eq]

theorem step_index_le (h : s.index ≤ s.grid.count) : s.step.index ≤ s.grid.count := by
  rcases Nat.lt_or_eq_of_le h with hlt | heq
  · rw [step_index hlt]
    exact hlt
  · rw [step_of_le (Nat.le_of_eq heq.symm)]
    exact h

theorem iterate_step_index_le (h : s.index ≤ s.grid.count) (n : ℕ) :
    (step^[n] s).index ≤ s.grid.count := by
  induction n generalizing s with
  | zero => exact h
  | succ n ih =>
    rw [Function.iterate_succ_apply, ← step_grid]
    refine ih ?_
    rw [step_grid]
    exact step_index_le h

theorem iterate_step_grid (s : Samples α) (n : ℕ) : (step^[n] s).grid = s.grid := by
  induction n generalizing s with
  | zero => rfl
  | succ n ih => exact (ih s.step).trans s.step_grid

/-! ## Reads -/

/-- A read passes points, one at least unless none is left. -/
theorem exists_next_eq_iterate (s : Samples α) :
    ∃ n, s.next.2 = step^[n] s ∧ s.next.2.remaining ≤ s.remaining - 1 := by
  fun_induction next s with
  | case1 s h sample hat =>
    refine ⟨1, by simp [step, h, hat], ?_⟩
    simp only [remaining]
    omega
  | case2 s h hat ih =>
    obtain ⟨n, hn, hremaining⟩ := ih
    refine ⟨n + 1, by simp [step, h, hat, hn], ?_⟩
    simp only [remaining] at hremaining ⊢
    omega
  | case3 s h =>
    refine ⟨0, rfl, ?_⟩
    simp only [remaining]
    omega

theorem exists_read_eq_iterate (s : Samples α) (k : ℕ) :
    ∃ n, (s.read k).2 = step^[n] s ∧ (s.read k).2.remaining ≤ s.remaining - k := by
  induction k generalizing s with
  | zero => exact ⟨0, rfl, Nat.le_refl _⟩
  | succ k ih =>
    obtain ⟨m, hm, hnext⟩ := exists_next_eq_iterate s
    obtain ⟨n, hn, hread⟩ := ih s.next.2
    refine ⟨n + m, ?_, ?_⟩
    · rw [Function.iterate_add_apply, ← hm, ← hn, read]
    · change (s.next.2.read k).2.remaining ≤ s.remaining - (k + 1)
      omega

/-- Every point that a read passes is its sample or counted as skipped. -/
theorem next_index (s : Samples α) :
    s.next.2.index + s.skipped = s.index + s.next.1.toList.length + s.next.2.skipped := by
  fun_induction next s with
  | case1 s h sample hat => simp only [Option.toList_some, List.length_singleton]
  | case2 s h hat ih =>
    simp only at ih
    omega
  | case3 s h => rfl

theorem read_index (s : Samples α) (k : ℕ) :
    (s.read k).2.index + s.skipped = s.index + (s.read k).1.length + (s.read k).2.skipped := by
  induction k generalizing s with
  | zero => rfl
  | succ k ih =>
    have hnext := s.next_index
    have hread := ih s.next.2
    rw [read, List.length_append]
    change (s.next.2.read k).2.index + _ = _ + _ + (s.next.2.read k).2.skipped
    omega

/-! ## Collecting -/

theorem collect_of_le (h : s.grid.count ≤ s.index) : s.collect = ([], s.skipped) := by
  rw [collect, remaining, Nat.sub_eq_zero_of_le h]
  rfl

/-- The point that is passed comes first in what is collected. -/
theorem collect_of_lt (h : s.index < s.grid.count) :
    s.collect = ((s.at? s.index).toList ++ s.step.collect.1, s.step.collect.2) := by
  have hremaining : s.remaining = s.step.remaining + 1 := by
    rw [remaining, remaining, step_index h, step_grid]
    omega
  have hat : s.step.at? = s.at? := by
    rw [step_eq]
    rfl
  rw [collect, collect, hremaining, hat, step_index h, List.range'_succ, List.map_cons]
  cases hsample : s.at? s.index with
  | some sample => simp [step, h, hsample]
  | none =>
    simp [step, h, hsample]
    omega

/-- What is read comes first in what is collected. -/
theorem collect_next (s : Samples α) :
    s.collect = (s.next.1.toList ++ s.next.2.collect.1, s.next.2.collect.2) := by
  fun_induction next s with
  | case1 s h sample hat => simp [collect_of_lt h, hat, step, h]
  | case2 s h hat ih =>
    rw [← ih, collect_of_lt h, hat]
    simp [step, h, hat]
  | case3 s h => rfl

theorem collect_read (s : Samples α) (k : ℕ) :
    s.collect = ((s.read k).1 ++ (s.read k).2.collect.1, (s.read k).2.collect.2) := by
  induction k generalizing s with
  | zero => rfl
  | succ k ih => rw [collect_next s, ih s.next.2, read, List.append_assoc]

/-- To collect is to read on until nothing is left. -/
theorem collect_eq_read {k : ℕ} (h : s.remaining ≤ k) : s.collect = ((s.read k).1, (s.read k).2.skipped) := by
  obtain ⟨n, -, hremaining⟩ := exists_read_eq_iterate s k
  have hend : (s.read k).2.grid.count ≤ (s.read k).2.index := by
    rw [remaining, remaining] at hremaining
    rw [remaining] at h
    omega
  rw [collect_read s k, collect_of_le hend, List.append_nil]

theorem length_collect_le (s : Samples α) : s.collect.1.length ≤ s.remaining := by
  refine Nat.le_trans (List.length_filterMap_le ..) (Nat.le_of_eq ?_)
  rw [List.length_map, List.length_range']

/-- However many samples are read before the rest is collected, together they are the finite positions of the
signal on the grid in order, or its finite velocities, and all other points are counted as skipped. Reads and
collecting pass point by point; at no moment is the end of the grid passed, and no more samples are to come
than there are points left. -/
theorem read_append_collect (f : Signal α) (g : TimeGrid α) (channel : Channel) (derivativeStep : α)
    (k : ℕ) :
    let s := start f g channel derivativeStep
    let samples := (s.read k).1 ++ (s.read k).2.collect.1
    (samples = match channel with
      | .position => g.finiteSamples f
      | .velocity => g.finiteSamples fun t => (f.velocity? t derivativeStep).getD Arithmetic.undefined) ∧
      samples.length ≤ g.count ∧ (s.read k).2.collect.2 = g.count - samples.length ∧
      (s.read k).2.index = (s.read k).1.length + (s.read k).2.skipped ∧
      (∃ n, (s.read k).2 = step^[n] s) ∧
      ∀ n, let m := step^[n] s
        m.index ≤ g.count ∧ m.index + m.remaining = g.count ∧
          m.collect = ((m.read m.remaining).1, (m.read m.remaining).2.skipped) ∧
          m.collect.1.length ≤ m.remaining := by
  intro s samples
  obtain ⟨hsamples, hcount⟩ := collect_eq_finiteSamples f g channel derivativeStep
  rw [finiteSamples_channelValue] at hsamples
  obtain ⟨hfirst, hskipped⟩ := Prod.ext_iff.mp (collect_read s k)
  have hlength : samples.length + (s.read k).2.collect.2 = g.count := by
    rw [← hskipped, ← hcount]
    exact congrArg (·.length + s.collect.2) hfirst.symm
  have hindex : (s.read k).2.index = (s.read k).1.length + (s.read k).2.skipped :=
    (read_index s k).trans (by rw [show s.index = 0 from rfl, Nat.zero_add])
  obtain ⟨n, hn, -⟩ := exists_read_eq_iterate s k
  refine ⟨hfirst.symm.trans hsamples, by omega, by omega, hindex, ⟨n, hn⟩, fun n => ?_⟩
  have hle : (step^[n] s).index ≤ g.count := iterate_step_index_le (Nat.zero_le _) n
  have hgrid : (step^[n] s).grid = g := iterate_step_grid s n
  refine ⟨hle, ?_, collect_eq_read (Nat.le_refl _), length_collect_le _⟩
  rw [remaining, hgrid]
  omega

end Samples

/-! A signal without a value at one, on a grid of three points. -/

open Exact

noncomputable def Signal.pole : Signal Exact := fun t => 1 / (t - 1)

theorem Signal.pole_real {x : ℝ} (h : x ≠ 1) : pole (real x) = real (1 / (x - 1)) := by
  simp [pole, real_div (sub_ne_zero.mpr h)]

theorem Signal.pole_one : pole (real 1) = .undefined := by simp [pole]

/-- Two steps ahead of zero the signal has no value. -/
theorem Signal.velocity?_pole_zero : pole.velocity? (real 0) (real 0.5) = none := by
  simp only [velocity?, derivatives?, forwardDifferences, ofNat_eq, real_mul, real_add, real_sub]
  norm_num [pole_one]

theorem Signal.velocity?_pole_one : pole.velocity? (real 1) (real 0.5) = none := by
  simp only [velocity?, derivatives?, centralDifferences, ofNat_eq, real_mul, real_add, real_sub]
  norm_num [pole_one]

theorem Signal.velocity?_pole_two : pole.velocity? (real 2) (real 0.5) = some (real (-4 / 3)) := by
  simp only [velocity?, derivatives?, centralDifferences, ofNat_eq, real_mul, real_add, real_sub]
  norm_num [pole_real, real_div]

namespace Samples

theorem read_append_collect_pole :
    let g : TimeGrid Exact := ⟨real 2, real 1, 3⟩
    let positions := start .pole g .position (real 0.5)
    let velocities := start .pole g .velocity (real 0.5)
    (positions.read 1).1 ++ (positions.read 1).2.collect.1 = [⟨real 0, real (-1)⟩, ⟨real 2, real 1⟩] ∧
      (positions.read 1).2.collect.2 = 1 ∧
      (velocities.read 1).1 ++ (velocities.read 1).2.collect.1 = [⟨real 2, real (-4 / 3)⟩] ∧
      (velocities.read 1).2.collect.2 = 2 := by
  intro g positions velocities
  obtain ⟨hpositions, -, hskipped, -⟩ := read_append_collect .pole g .position (real 0.5) 1
  obtain ⟨hvelocities, -, hskipped', -⟩ := read_append_collect .pole g .velocity (real 0.5) 1
  have hthree (value : Exact → Exact) : g.finiteSamples value =
      [⟨real 0, value (real 0)⟩, ⟨real 1, value (real 1)⟩, ⟨real 2, value (real 2)⟩].filter fun p =>
        Arithmetic.isFinite p.value := by
    norm_num [g, TimeGrid.finiteSamples, List.range_succ, TimeGrid.time_real]
  have hfinite : g.finiteSamples Signal.pole = [⟨real 0, real (-1)⟩, ⟨real 2, real 1⟩] := by
    norm_num [hthree, Signal.pole_one, Signal.pole_real]
  have hfinite' : g.finiteSamples (fun t => (Signal.pole.velocity? t (real 0.5)).getD Arithmetic.undefined) =
      [⟨real 2, real (-4 / 3)⟩] := by
    simp [hthree, Signal.velocity?_pole_zero, Signal.velocity?_pole_one, Signal.velocity?_pole_two]
  have hread := hpositions.trans hfinite
  have hread' := hvelocities.trans hfinite'
  rw [hread] at hskipped
  rw [hread'] at hskipped'
  exact ⟨hread, hskipped, hread', hskipped'⟩

end Samples

end Oscillator
