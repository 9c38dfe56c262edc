import Mathlib.Tactic.FieldSimp
import Mathlib.Tactic.Linarith
import Oscillator.Proofs.Exact.Numbers
import Oscillator.Sampling.Grid

/-! # Grids cover their range

The whole steps of a range are counted with an allowance, and a time past the bound is the bound. So the
last point may be the bound itself, but no point is lost or met twice. A grid of too many points is that of
a wider step, which then ends at the bound.
-/
namespace Oscillator.TimeGrid

open Exact

/-- The times go from zero up to a bound without a gap wider than a step. -/
structure Covers (g : TimeGrid Exact) (bound : ℝ) : Prop where
  count_pos : 0 < g.count
  time_zero : g.time 0 = real 0
  increasing : ∀ i j, i < j → j < g.count → g.time i < g.time j
  inside : ∀ i < g.count, real 0 ≤ g.time i ∧ g.time i ≤ real bound
  spacing : ∀ i, i + 1 < g.count → g.time (i + 1) - g.time i ≤ g.step
  reach : real bound - g.time (g.count - 1) < g.step

variable {bound step : ℝ} {n : ℕ}

theorem time_real (bound step : ℝ) (count i : ℕ) :
    time ⟨real bound, real step, count⟩ i = real (min (i * step) bound) := by
  rw [time, natCast_eq, real_mul, smaller_real]

theorem time_inside (hb : 0 ≤ bound) (hs : 0 < step) (count i : ℕ) :
    real 0 ≤ time ⟨real bound, real step, count⟩ i ∧ time ⟨real bound, real step, count⟩ i ≤ real bound := by
  rw [time_real, real_le, real_le]
  exact ⟨le_min (by positivity) hb, min_le_right _ _⟩

/-- All steps but the last one end before the bound, and one more step would end after it. -/
theorem covers_of_steps (hb : 0 ≤ bound) (hs : 0 < step) (hlast : n * step < bound + step)
    (hnext : bound < (n + 1) * step) : Covers ⟨real bound, real step, n + 1⟩ bound where
  count_pos := n.succ_pos
  time_zero := by rw [time_real, Nat.cast_zero, zero_mul, min_eq_left hb]
  increasing i j hij hj := by
    rw [time_real, time_real, real_lt]
    have hijs : i * step < j * step := by gcongr
    have hin : ((i + 1 : ℕ) : ℝ) * step ≤ n * step := by
      gcongr
      exact hij.trans_le (Nat.lt_succ_iff.mp hj)
    rw [Nat.cast_add_one, add_mul, one_mul] at hin
    exact (min_le_left _ _).trans_lt (lt_min hijs (by linarith))
  inside i _ := time_inside hb hs (n + 1) i
  spacing i _ := by
    rw [time_real, time_real, real_sub, real_le, Nat.cast_add_one, add_mul, one_mul, sub_le_iff_le_add,
      ← min_add_add_left]
    exact le_min (by linarith [min_le_left (i * step + step) bound])
      (by linarith [min_le_right (i * step + step) bound])
  reach := by
    change real bound - time ⟨real bound, real step, n + 1⟩ n < real step
    rw [time_real, real_sub, real_lt, sub_lt_comm]
    exact lt_min (by linarith) (by linarith)

/-- The allowance is less than a step, and no step is counted that does not begin before the bound. -/
theorem steps_of_floor (hs : 0 < step) (hn : ⌊bound / step + 1e-9⌋ = n) :
    n * step < bound + step ∧ bound < (n + 1) * step := by
  obtain ⟨hle, hlt⟩ := Int.floor_eq_iff.mp hn
  have hbound : bound / step * step = bound := div_mul_cancel₀ _ hs.ne'
  rw [Int.cast_natCast] at hle hlt
  constructor
  · nlinarith
  · nlinarith

theorem exists_steps (hb : 0 ≤ bound) (hs : 0 < step) : ∃ n : ℕ, ⌊bound / step + 1e-9⌋ = n :=
  Int.eq_ofNat_of_zero_le (Int.floor_nonneg.mpr (by positivity))

theorem intervals?_real (hb : 0 ≤ bound) (hs : 0 < step) (hn : ⌊bound / step + 1e-9⌋ = n) :
    intervals? (real bound) (real step) = some (real n) := by
  have hsteps : Arithmetic.floor (real bound / real step + real 1e-9) = real n := by
    rw [real_div hs.ne', real_add, floor_real, hn, Int.cast_natCast]
  simp [intervals?, hsteps, hb, hs]

theorem intervals?_eq_none (h : bound < 0 ∨ step ≤ 0) : intervals? (real bound) (real step) = none := by
  rcases h with h | h <;> simp [intervals?, h]

/-- A range with more points than can be counted has the first ones of them. -/
theorem ofRange_counted (hb : 0 ≤ bound) (hs : 0 < step) (hn : ⌊bound / step + 1e-9⌋ = n) :
    ofRange (real bound) (real step) = ⟨real bound, real step, min (n + 1) maxCount⟩ := by
  rw [ofRange, intervals?_real hb hs hn]
  simp only [toCount_real, Nat.floor_natCast, maxCount, TimeGrid.mk.injEq, true_and]
  omega

theorem ofRange_real (hb : 0 ≤ bound) (hs : 0 < step) (hn : ⌊bound / step + 1e-9⌋ = n)
    (hcount : n + 1 < 2 ^ 64) : ofRange (real bound) (real step) = ⟨real bound, real step, n + 1⟩ := by
  have hle : n + 1 ≤ maxCount := Nat.le_of_lt_succ hcount
  rw [ofRange_counted hb hs hn, min_eq_left hle]

theorem ofRange_covers (hb : 0 ≤ bound) (hs : 0 < step) (hn : ⌊bound / step + 1e-9⌋ = n)
    (hcount : n + 1 < 2 ^ 64) : (ofRange (real bound) (real step)).Covers bound := by
  rw [ofRange_real hb hs hn hcount]
  exact covers_of_steps hb hs (steps_of_floor hs hn).1 (steps_of_floor hs hn).2

/-- A wider step divides the range into the steps that it was widened for. -/
theorem floor_widened (hb : 0 < bound) (n : ℕ) : ⌊bound / (bound / n) + 1e-9⌋ = n := by
  rw [div_div_cancel₀ hb.ne', Int.floor_eq_iff]
  norm_num

theorem points_le_iff {m : ℕ} : (real n + 1 : Exact) ≤ (m : Exact) ↔ n + 1 ≤ m := by
  rw [ofNat_eq, natCast_eq, real_add, real_le]
  exact_mod_cast Iff.rfl

/-- A grid of too many points is one with a step for each point allowed but the first. -/
theorem capped_real (hb : 0 ≤ bound) (hs : 0 < step) (hn : ⌊bound / step + 1e-9⌋ = n) {maxPoints : ℕ}
    (hm : maxPoints ≠ 1) : capped (real bound) (real step) maxPoints =
      if maxPoints = 0 ∨ n + 1 ≤ maxPoints then ofRange (real bound) (real step)
      else ofRange (real bound) (real (bound / (maxPoints - 1 : ℕ))) := by
  rw [capped, intervals?_real hb hs hn]
  simp only [points_le_iff, if_neg hm]
  refine ite_congr rfl (fun _ => rfl) fun hmany => ?_
  have hwidth : ((maxPoints - 1 : ℕ) : ℝ) ≠ 0 := Nat.cast_ne_zero.mpr (by omega)
  rw [natCast_eq, real_div hwidth]

theorem capped_isEmpty (h : bound < 0 ∨ step ≤ 0) (maxPoints : ℕ) :
    (capped (real bound) (real step) maxPoints).isEmpty = true := by
  simp [capped, ofRange, intervals?_eq_none h, isEmpty]

/-- Where a range has fewer than `2 ^ 64` points, a grid covers it with no more points than allowed. If the
step would give more, all that are allowed are used and the last one is at the bound. Without a range or
without a step there are no points. -/
theorem capped_covers (bound step : ℝ) (maxPoints : ℕ) :
    let g := capped (real bound) (real step) maxPoints
    (0 ≤ bound → 0 < step → ⌊bound / step + 1e-9⌋ + 1 < 2 ^ 64 → maxPoints ≠ 1 →
      g.Covers bound ∧ (2 ≤ maxPoints → g.count ≤ maxPoints ∧
        (maxPoints < (ofRange (real bound) (real step)).count →
          g.count = maxPoints ∧ g.time (g.count - 1) = real bound))) ∧
    (bound < 0 ∨ step ≤ 0 → g.isEmpty = true) := by
  intro g
  refine ⟨fun hb hs hcount hm => ?_, fun hnone => capped_isEmpty hnone maxPoints⟩
  obtain ⟨n, hn⟩ := exists_steps hb hs
  rw [hn] at hcount
  have hcount : n + 1 < 2 ^ 64 := by exact_mod_cast hcount
  have hg := capped_real hb hs hn hm
  rw [ofRange_real hb hs hn hcount] at hg ⊢
  by_cases hfew : maxPoints = 0 ∨ n + 1 ≤ maxPoints
  · rw [if_pos hfew] at hg
    rw [show g = _ from hg]
    have hcovers := ofRange_covers hb hs hn hcount
    rw [ofRange_real hb hs hn hcount] at hcovers
    refine ⟨hcovers, fun htwo => ⟨?_, fun hmany => ?_⟩⟩
    · change n + 1 ≤ maxPoints
      omega
    · change maxPoints < n + 1 at hmany
      omega
  · obtain ⟨m, rfl⟩ : ∃ m, maxPoints = m + 1 := Nat.exists_eq_succ_of_ne_zero (by omega)
    have hbound : 0 < bound := by
      have htwo : (2 : ℝ) ≤ n := by exact_mod_cast (show 2 ≤ n by omega)
      have hsteps := mul_le_mul_of_nonneg_right htwo hs.le
      linarith [(steps_of_floor hs hn).1]
    have hmpos : 0 < (m : ℝ) := Nat.cast_pos.mpr (by omega)
    have hfloor := floor_widened hbound m
    have hwidth : 0 < bound / m := by positivity
    have hcovers := ofRange_covers hb hwidth hfloor (by omega)
    rw [if_neg hfew, Nat.add_sub_cancel] at hg
    rw [ofRange_real hb hwidth hfloor (by omega)] at hg hcovers
    rw [show g = _ from hg]
    refine ⟨hcovers, fun _ => ⟨le_rfl, fun _ => ⟨rfl, ?_⟩⟩⟩
    change time ⟨real bound, real (bound / m), m + 1⟩ m = real bound
    rw [time_real, mul_div_cancel₀ _ hmpos.ne', min_self]

/-- A range of a thousand steps, with 300 points. -/
theorem capped_covers_thousand :
    ⌊(100 : ℝ) / 0.1 + 1e-9⌋ + 1 < 2 ^ 64 ∧ 300 < (ofRange (real 100) (real 0.1)).count ∧
      (capped (real 100) (real 0.1) 300).Covers 100 ∧ (capped (real 100) (real 0.1) 300).count = 300 ∧
      (capped (real 100) (real 0.1) 300).time ((capped (real 100) (real 0.1) 300).count - 1) = real 100 ∧
      (capped (real (-1)) (real 0.1) 300).isEmpty = true := by
  have hfloor : ⌊(100 : ℝ) / 0.1 + 1e-9⌋ = (1000 : ℕ) := by
    rw [Int.floor_eq_iff]
    norm_num
  have hcount : ⌊(100 : ℝ) / 0.1 + 1e-9⌋ + 1 < 2 ^ 64 := by
    rw [hfloor]
    norm_num
  have hmany : 300 < (ofRange (real 100) (real 0.1)).count := by
    rw [ofRange_real (by norm_num) (by norm_num) hfloor (by norm_num)]
    norm_num
  obtain ⟨hcovers, hpoints⟩ :=
    (capped_covers 100 0.1 300).1 (by norm_num) (by norm_num) hcount (by norm_num)
  obtain ⟨hall, hend⟩ := (hpoints (by norm_num)).2 hmany
  exact ⟨hcount, hmany, hcovers, hall, hend, (capped_covers (-1) 0.1 300).2 (.inl (by norm_num))⟩

end Oscillator.TimeGrid
