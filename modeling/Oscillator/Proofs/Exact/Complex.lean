import Mathlib.Data.Complex.Basic
import Oscillator.ComplexNumber
import Oscillator.Proofs.Exact.Numbers

/-! # Exact complex numbers

Pairs of exact numbers compute as complex numbers do. The square root is only taken on the real axis, where
that of a negative number is the one on the upper half of the imaginary axis.
-/
namespace Oscillator.ComplexNumber

def exact (z : ℂ) : ComplexNumber Exact := ⟨.real z.re, .real z.im⟩

variable (z w : ℂ) (x : ℝ)

@[simp] theorem exact_add : (exact z).add (exact w) = exact (z + w) := by simp [exact, add]
@[simp] theorem exact_sub : (exact z).sub (exact w) = exact (z - w) := by simp [exact, sub]
@[simp] theorem exact_mul : (exact z).mul (exact w) = exact (z * w) := by simp [exact, mul]
@[simp] theorem exact_neg : (exact z).neg = exact (-z) := by simp [exact, neg]
@[simp] theorem exact_subReal : (exact z).subReal (.real x) = exact (z - x) := by simp [exact, subReal]
@[simp] theorem exact_scale : (exact z).scale (.real x) = exact (z * x) := by simp [exact, scale]

/-- The square root of a real number, where one of the parts is zero. -/
noncomputable def axisSqrt : ℂ := ⟨√x, √(-x)⟩

theorem axisSqrt_of_nonneg {x : ℝ} (h : 0 ≤ x) : axisSqrt x = (√x : ℝ) :=
  Complex.ext rfl (Real.sqrt_eq_zero_of_nonpos (neg_nonpos.mpr h))

theorem axisSqrt_of_neg {x : ℝ} (h : x < 0) : axisSqrt x = (√(-x) : ℝ) * Complex.I := by
  apply Complex.ext <;> simp [axisSqrt, Real.sqrt_eq_zero_of_nonpos h.le]

theorem axisSqrt_sq : axisSqrt x ^ 2 = x := by
  rcases le_or_gt 0 x with h | h
  · rw [axisSqrt_of_nonneg h, ← Complex.ofReal_pow, Real.sq_sqrt h]
  · rw [axisSqrt_of_neg h, mul_pow, Complex.I_sq, ← Complex.ofReal_pow, Real.sq_sqrt (neg_pos.mpr h).le]
    push_cast
    ring

theorem exact_sqrtOfReal : (exact x).sqrtOfReal = exact (axisSqrt x) := by
  rcases le_or_gt 0 x with h | h
  · simp [axisSqrt_of_nonneg h, exact, sqrtOfReal, h.not_gt, Exact.sqrt_real h]
  · simp [axisSqrt_of_neg h, exact, sqrtOfReal, h, Exact.sqrt_real (neg_pos.mpr h).le]

end Oscillator.ComplexNumber
