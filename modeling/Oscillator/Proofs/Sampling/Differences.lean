import Mathlib.Analysis.Calculus.Taylor
import Mathlib.Analysis.SpecialFunctions.Trigonometric.Deriv
import Oscillator.Derivative
import Oscillator.Proofs.Exact.Numbers

/-! # Errors of numerical derivatives

A signal that is smooth from time zero on is compared with its Taylor polynomial at each time that a
difference reads. The weights of the differences cancel the polynomials up to the derivative that is asked
for, and what is left are the remainders. So both pairs of differences are of second order, inside the domain
and at its edge.
-/
namespace Oscillator

open Exact Set
open scoped Nat

/-! ## Remainders -/

section Remainders

variable {x : ℝ → ℝ} {n : ℕ} {M t d : ℝ}

theorem taylorWithinEval_subset {s u : Set ℝ} (hsu : s ⊆ u) (hs : UniqueDiffOn ℝ s)
    (hu : UniqueDiffOn ℝ u) (hx : ContDiffOn ℝ n x u) (ht : t ∈ s) (y : ℝ) :
    taylorWithinEval x n s t y = taylorWithinEval x n u t y := by
  rw [taylor_within_apply, taylor_within_apply]
  refine Finset.sum_congr rfl fun k hk => ?_
  have hkn : k ≤ n := Nat.lt_succ_iff.mp (Finset.mem_range.mp hk)
  rw [iteratedDerivWithin, iteratedDerivWithin,
    iteratedFDerivWithin_subset hsu hs hu (hx.of_le (mod_cast hkn)) ht]

/-- Taylor's theorem from a time that is not negative, forward and back. -/
theorem abs_sub_taylorWithinEval_le (hx : ContDiffOn ℝ (n + 1 : ℕ) x (Ici 0))
    (hM : ∀ s, 0 ≤ s → |iteratedDerivWithin (n + 1) x (Ici 0) s| ≤ M) (ht : 0 ≤ t)
    (hd : 0 ≤ t + d) :
    |x (t + d) - taylorWithinEval x n (Ici 0) t (t + d)| ≤ M * |d| ^ (n + 1) / (n + 1)! := by
  rcases eq_or_ne d 0 with rfl | hne
  · simp
  have hne : t ≠ t + d := by simpa using hne
  have hsub : uIcc t (t + d) ⊆ Ici 0 := fun s hs => (le_min ht hd).trans hs.1
  have hu : UniqueDiffOn ℝ (uIcc t (t + d)) := uniqueDiffOn_uIcc hne
  have hn : ContDiffOn ℝ n x (Ici 0) := hx.of_le (by norm_cast; omega)
  have hdiff := (hx.mono hsub).differentiableOn_iteratedDerivWithin (m := n) (by norm_cast; omega) hu
  obtain ⟨s, hs, he⟩ :=
    taylor_mean_remainder_lagrange hne (hn.mono hsub) (hdiff.mono Ioo_subset_Icc_self)
  have hs' : s ∈ uIcc t (t + d) := Ioo_subset_Icc_self hs
  have hderiv : iteratedDerivWithin (n + 1) x (uIcc t (t + d)) s =
      iteratedDerivWithin (n + 1) x (Ici 0) s := by
    rw [iteratedDerivWithin, iteratedDerivWithin,
      iteratedFDerivWithin_subset hsub hu (uniqueDiffOn_Ici 0) hx hs']
  rw [← taylorWithinEval_subset hsub hu (uniqueDiffOn_Ici 0) hn left_mem_uIcc, he, hderiv, abs_div,
    abs_mul, abs_pow, add_sub_cancel_left, Nat.abs_cast]
  gcongr
  exact hM s (hsub hs')

theorem taylorWithinEval_two (x : ℝ → ℝ) (s : Set ℝ) (t d : ℝ) :
    taylorWithinEval x 2 s t (t + d) =
      x t + derivWithin x s t * d + iteratedDerivWithin 2 x s t * d ^ 2 / 2 := by
  simp [taylorWithinEval_succ, iteratedDerivWithin_one]
  ring

theorem taylorWithinEval_three (x : ℝ → ℝ) (s : Set ℝ) (t d : ℝ) :
    taylorWithinEval x 3 s t (t + d) =
      taylorWithinEval x 2 s t (t + d) + iteratedDerivWithin 3 x s t * d ^ 3 / 6 := by
  simp [taylorWithinEval_succ, Nat.factorial]
  ring

end Remainders

/-! ## Differences -/

theorem abs_div_sub_le {a b c e : ℝ} (hb : 0 < b) (h : |a - b * c| ≤ e * b) : |a / b - c| ≤ e := by
  have hsplit : a / b - c = (a - b * c) / b := by field_simp
  rw [hsplit, abs_div, abs_of_pos hb]
  exact (div_le_iff₀ hb).mpr h

/-- A function with four continuous derivatives from time zero on, of which the last two are bounded. -/
structure IsSmooth (x : ℝ → ℝ) (M₃ M₄ : ℝ) : Prop where
  contDiff : ContDiffOn ℝ 4 x (Ici 0)
  third : ∀ t, 0 ≤ t → |iteratedDerivWithin 3 x (Ici 0) t| ≤ M₃
  fourth : ∀ t, 0 ≤ t → |iteratedDerivWithin 4 x (Ici 0) t| ≤ M₄

theorem isSmooth_of_contDiff {x : ℝ → ℝ} {M₃ M₄ : ℝ} (hx : ContDiff ℝ 4 x)
    (h3 : ∀ t, |iteratedDeriv 3 x t| ≤ M₃) (h4 : ∀ t, |iteratedDeriv 4 x t| ≤ M₄) :
    IsSmooth x M₃ M₄ where
  contDiff := hx.contDiffOn
  third t ht := by
    rw [iteratedDerivWithin_eq_iteratedDeriv (uniqueDiffOn_Ici 0) (hx.of_le (by norm_num)).contDiffAt ht]
    exact h3 t
  fourth t ht := by
    rw [iteratedDerivWithin_eq_iteratedDeriv (uniqueDiffOn_Ici 0) hx.contDiffAt ht]
    exact h4 t

namespace IsSmooth

variable {x : ℝ → ℝ} {M₃ M₄ t d h : ℝ} (hx : IsSmooth x M₃ M₄)
include hx

theorem third_nonneg : 0 ≤ M₃ := (abs_nonneg _).trans (hx.third 0 le_rfl)

theorem fourth_nonneg : 0 ≤ M₄ := (abs_nonneg _).trans (hx.fourth 0 le_rfl)

theorem abs_sub_quadratic_le (ht : 0 ≤ t) (hd : 0 ≤ t + d) :
    |x (t + d) - (x t + derivWithin x (Ici 0) t * d + iteratedDerivWithin 2 x (Ici 0) t * d ^ 2 / 2)| ≤
      M₃ * |d| ^ 3 / 6 := by
  have hcont : ContDiffOn ℝ (2 + 1 : ℕ) x (Ici 0) := hx.contDiff.of_le (by norm_num)
  rw [← taylorWithinEval_two]
  simpa [Nat.factorial] using abs_sub_taylorWithinEval_le hcont hx.third ht hd

theorem abs_sub_cubic_le (ht : 0 ≤ t) (hd : 0 ≤ t + d) :
    |x (t + d) - (x t + derivWithin x (Ici 0) t * d + iteratedDerivWithin 2 x (Ici 0) t * d ^ 2 / 2 +
        iteratedDerivWithin 3 x (Ici 0) t * d ^ 3 / 6)| ≤ M₄ * |d| ^ 4 / 24 := by
  have hcont : ContDiffOn ℝ (3 + 1 : ℕ) x (Ici 0) := hx.contDiff.of_le (by norm_num)
  rw [← taylorWithinEval_two, ← taylorWithinEval_three]
  simpa [Nat.factorial] using abs_sub_taylorWithinEval_le hcont hx.fourth ht hd

/-! In each difference the polynomials cancel, but for the derivative that it stands for. -/

theorem abs_central_velocity_sub_le (hh : 0 < h) (ht : 0 ≤ t - h) :
    |(x (t + h) - x (t - h)) / (2 * h) - derivWithin x (Ici 0) t| ≤ M₃ * h ^ 2 / 6 := by
  have hahead := hx.abs_sub_quadratic_le (t := t) (d := h) (by linarith) (by linarith)
  have hbehind := hx.abs_sub_quadratic_le (t := t) (d := -h) (by linarith) (by linarith)
  rw [abs_of_pos hh, abs_le] at hahead
  rw [abs_neg, abs_of_pos hh, ← sub_eq_add_neg, abs_le] at hbehind
  refine abs_div_sub_le (by positivity) (abs_le.mpr ?_)
  constructor <;> linarith

theorem abs_central_acceleration_sub_le (hh : 0 < h) (ht : 0 ≤ t - h) :
    |(x (t + h) - 2 * x t + x (t - h)) / (h * h) - iteratedDerivWithin 2 x (Ici 0) t| ≤
      M₄ * h ^ 2 / 12 := by
  have hahead := hx.abs_sub_cubic_le (t := t) (d := h) (by linarith) (by linarith)
  have hbehind := hx.abs_sub_cubic_le (t := t) (d := -h) (by linarith) (by linarith)
  rw [abs_of_pos hh, abs_le] at hahead
  rw [abs_neg, abs_of_pos hh, ← sub_eq_add_neg, abs_le] at hbehind
  refine abs_div_sub_le (by positivity) (abs_le.mpr ?_)
  constructor <;> linarith

theorem abs_forward_velocity_sub_le (hh : 0 < h) (ht : 0 ≤ t) :
    |(-3 * x t + 4 * x (t + h) - x (t + 2 * h)) / (2 * h) - derivWithin x (Ici 0) t| ≤
      M₃ * h ^ 2 := by
  have htwo : 0 < 2 * h := by positivity
  have hnear := hx.abs_sub_quadratic_le ht (add_nonneg ht hh.le)
  have hfar := hx.abs_sub_quadratic_le ht (add_nonneg ht htwo.le)
  rw [abs_of_pos hh, abs_le] at hnear
  rw [abs_of_pos htwo, abs_le] at hfar
  refine abs_div_sub_le (by positivity) (abs_le.mpr ?_)
  constructor <;> linarith

theorem abs_forward_acceleration_sub_le (hh : 0 < h) (ht : 0 ≤ t) :
    |(2 * x t - 5 * x (t + h) + 4 * x (t + 2 * h) - x (t + 3 * h)) / (h * h) -
        iteratedDerivWithin 2 x (Ici 0) t| ≤ 25 / 4 * M₄ * h ^ 2 := by
  have htwo : 0 < 2 * h := by positivity
  have hthree : 0 < 3 * h := by positivity
  have hnear := hx.abs_sub_cubic_le ht (add_nonneg ht hh.le)
  have hmiddle := hx.abs_sub_cubic_le ht (add_nonneg ht htwo.le)
  have hfar := hx.abs_sub_cubic_le ht (add_nonneg ht hthree.le)
  rw [abs_of_pos hh, abs_le] at hnear
  rw [abs_of_pos htwo, abs_le] at hmiddle
  rw [abs_of_pos hthree, abs_le] at hfar
  refine abs_div_sub_le (by positivity) (abs_le.mpr ?_)
  constructor <;> linarith

end IsSmooth

namespace Signal

/-- From time zero on, the signal has the values of a real function. -/
def DrawsFromZero (f : Signal Exact) (x : ℝ → ℝ) : Prop := ∀ t, 0 ≤ t → f (real t) = real (x t)

variable {f : Signal Exact} {x : ℝ → ℝ} {t h : ℝ}

theorem DrawsFromZero.centralDifferences (hf : f.DrawsFromZero x) (hh : 0 < h) (ht : 0 ≤ t - h) :
    f.centralDifferences (real t) (real h) =
      ⟨real ((x (t + h) - x (t - h)) / (2 * h)),
        real ((x (t + h) - 2 * x t + x (t - h)) / (h * h))⟩ := by
  have h2 : (2 * h : ℝ) ≠ 0 := by positivity
  have hhh : h * h ≠ 0 := by positivity
  simp [Signal.centralDifferences, hf (t + h) (by linarith), hf t (by linarith), hf (t - h) ht,
    real_div h2, real_div hhh]

theorem DrawsFromZero.forwardDifferences (hf : f.DrawsFromZero x) (hh : 0 < h) (ht : 0 ≤ t) :
    f.forwardDifferences (real t) (real h) =
      ⟨real ((-3 * x t + 4 * x (t + h) - x (t + 2 * h)) / (2 * h)),
        real ((2 * x t - 5 * x (t + h) + 4 * x (t + 2 * h) - x (t + 3 * h)) / (h * h))⟩ := by
  have h2 : (2 * h : ℝ) ≠ 0 := by positivity
  have hhh : h * h ≠ 0 := by positivity
  simp [Signal.forwardDifferences, hf (t + h) (by linarith), hf t (by linarith),
    hf (t + 2 * h) (by linarith), hf (t + 3 * h) (by linarith), real_div h2, real_div hhh]

/-- A positive step gives the derivatives, if their differences are numbers. -/
theorem derivatives?_eq_some (hh : 0 < h) {v a : ℝ}
    (hd : (if 0 ≤ t - h then f.centralDifferences (real t) (real h)
      else f.forwardDifferences (real t) (real h)) = ⟨real v, real a⟩) :
    f.derivatives? (real t) (real h) = some ⟨real v, real a⟩ := by
  simp only [derivatives?, isUndefined_real, ofNat_eq, Nat.cast_zero, real_sub, real_le, hh.not_ge,
    decide_false, Bool.or_false, isFinite_real, Bool.not_true, Bool.false_eq_true, if_false, hd,
    Bool.and_true, if_true]

/-- Velocity and acceleration of a smooth signal are found up to an error of second order in the step, also
at the edge of the domain. -/
theorem derivatives_error_le {M₃ M₄ : ℝ} (hf : f.DrawsFromZero x) (hx : IsSmooth x M₃ M₄) (ht : 0 ≤ t)
    (hh : 0 < h) :
    ∃ v a : ℝ, f.derivatives? (real t) (real h) = some ⟨real v, real a⟩ ∧
      |v - derivWithin x (Ici 0) t| ≤ M₃ * h ^ 2 ∧
      |a - iteratedDerivWithin 2 x (Ici 0) t| ≤ 25 / 4 * M₄ * h ^ 2 := by
  by_cases hback : 0 ≤ t - h
  · refine ⟨_, _, derivatives?_eq_some hh ((if_pos hback).trans (hf.centralDifferences hh hback)), ?_, ?_⟩
    · have hM := mul_nonneg hx.third_nonneg (sq_nonneg h)
      linarith [hx.abs_central_velocity_sub_le hh hback]
    · have hM := mul_nonneg hx.fourth_nonneg (sq_nonneg h)
      linarith [hx.abs_central_acceleration_sub_le hh hback]
  · exact ⟨_, _, derivatives?_eq_some hh ((if_neg hback).trans (hf.forwardDifferences hh ht)),
      hx.abs_forward_velocity_sub_le hh ht, hx.abs_forward_acceleration_sub_le hh ht⟩

/-- The cosine at time zero, where no step back is possible, and inside the domain. -/
theorem derivatives_error_le_cosine :
    (∃ v a : ℝ, derivatives? Arithmetic.cos (real 0) (real 0.01) = some ⟨real v, real a⟩ ∧
      |v| ≤ 0.01 ^ 2 ∧ |a + 1| ≤ 25 / 4 * 0.01 ^ 2) ∧
    ∃ v a : ℝ, derivatives? Arithmetic.cos (real 1) (real 0.01) = some ⟨real v, real a⟩ ∧
      |v + Real.sin 1| ≤ 0.01 ^ 2 ∧ |a + Real.cos 1| ≤ 25 / 4 * 0.01 ^ 2 := by
  have hdraws : DrawsFromZero Arithmetic.cos Real.cos := fun t _ => cos_real t
  have hsmooth : IsSmooth Real.cos 1 1 := isSmooth_of_contDiff Real.contDiff_cos
    (Real.abs_iteratedDeriv_cos_le_one 3) (Real.abs_iteratedDeriv_cos_le_one 4)
  have hvelocity {t : ℝ} (ht : 0 ≤ t) : derivWithin Real.cos (Ici 0) t = -Real.sin t := by
    rw [Real.differentiableAt_cos.derivWithin (uniqueDiffOn_Ici 0 t ht), Real.deriv_cos]
  have hacceleration {t : ℝ} (ht : 0 ≤ t) : iteratedDerivWithin 2 Real.cos (Ici 0) t = -Real.cos t := by
    rw [iteratedDerivWithin_eq_iteratedDeriv (uniqueDiffOn_Ici 0) Real.contDiff_cos.contDiffAt ht]
    simp
  constructor
  · have h := derivatives_error_le hdraws hsmooth le_rfl (show (0 : ℝ) < 0.01 by norm_num)
    simpa [hvelocity, hacceleration] using h
  · have h := derivatives_error_le hdraws hsmooth zero_le_one (show (0 : ℝ) < 0.01 by norm_num)
    simpa [hvelocity, hacceleration] using h

end Signal

end Oscillator
