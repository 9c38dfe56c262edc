import Mathlib

/-! # Nearest doubles

The numbers that doubles can express, without sign and without a largest one, and what it means to
round to them. A rounded number is at least as near as every other double, and so no double lies
between a number and its rounding.
-/
namespace Oscillator.Double

/-- A number of 53 binary digits whose last one stands at the place `2 ^ -1074` or before it. -/
def Representable (x : ℚ) : Prop := ∃ (m : ℕ) (e : ℤ), m < 2 ^ 53 ∧ -1074 ≤ e ∧ x = m * 2 ^ e

/-- No representable number is nearer. -/
structure Nearest (v x : ℚ) : Prop where
  representable : Representable x
  near : ∀ u, Representable u → |x - v| ≤ |u - v|

namespace Representable

theorem natCast {n : ℕ} (h : n < 2 ^ 53) : Representable n := ⟨n, 0, h, by norm_num, by simp⟩

theorem nonneg {x : ℚ} (h : Representable x) : 0 ≤ x := by
  obtain ⟨m, e, -, -, rfl⟩ := h
  positivity

/-- Halves are representable as long as the number is not among the smallest. -/
theorem half {x : ℚ} (h : Representable x) (hx : 1 ≤ x) : Representable (x / 2) := by
  obtain ⟨m, e, hm, he, rfl⟩ := h
  have hlt : -1074 < e := by
    refine lt_of_le_of_ne he fun heq => ?_
    subst heq
    have hm' : (m : ℚ) ≤ 2 ^ (53 : ℤ) := by exact_mod_cast hm.le
    have hlt : (m : ℚ) * 2 ^ (-1074 : ℤ) < 1 := calc
      (m : ℚ) * 2 ^ (-1074 : ℤ) ≤ 2 ^ (53 : ℤ) * 2 ^ (-1074 : ℤ) := by gcongr
      _ = 2 ^ (-1021 : ℤ) := by rw [← zpow_add₀ two_ne_zero]; norm_num
      _ < 1 := zpow_lt_one_of_neg₀ one_lt_two (by norm_num)
    linarith
  refine ⟨m, e - 1, hm, by omega, ?_⟩
  rw [zpow_sub_one₀ two_ne_zero]
  ring

theorem tiny : Representable (2 ^ (-1074 : ℤ)) := ⟨1, -1074, by norm_num, le_rfl, by simp⟩

theorem tiny_le {x : ℚ} (h : Representable x) (hx : 0 < x) : 2 ^ (-1074 : ℤ) ≤ x := by
  obtain ⟨m, e, -, he, rfl⟩ := h
  have hm : 1 ≤ (m : ℚ) := by
    have : m ≠ 0 := by rintro rfl; simp at hx
    exact_mod_cast Nat.one_le_iff_ne_zero.mpr this
  calc (2 : ℚ) ^ (-1074 : ℤ) ≤ 2 ^ e := zpow_le_zpow_right₀ (by norm_num) he
    _ ≤ m * 2 ^ e := le_mul_of_one_le_left (by positivity) hm

end Representable

namespace Nearest

variable {v x u w y : ℚ}

theorem add_le_of_near (hlt : y < x) (h : |x - v| ≤ |y - v|) : x + y ≤ 2 * v := by
  rw [← sq_le_sq] at h
  nlinarith

theorem le_add_of_near (hlt : y < x) (h : |y - v| ≤ |x - v|) : 2 * v ≤ x + y := by
  rw [← sq_le_sq] at h
  nlinarith

theorem le_of_le (h : Nearest v x) (hu : Representable u) (hv : v ≤ u) : x ≤ u := by
  by_contra hlt
  have := h.near u hu
  rw [abs_of_nonneg (by linarith), abs_of_nonneg (by linarith)] at this
  linarith

theorem ge_of_ge (h : Nearest v x) (hu : Representable u) (hv : u ≤ v) : u ≤ x := by
  by_contra hlt
  have := h.near u hu
  rw [abs_of_nonpos (by linarith), abs_of_nonpos (by linarith)] at this
  linarith

theorem eq_of_representable (h : Nearest v x) (hv : Representable v) : x = v :=
  le_antisymm (h.le_of_le hv le_rfl) (h.ge_of_ge hv le_rfl)

/-- Rounding keeps the order of different numbers. -/
theorem le_of_lt (hx : Nearest v x) (hy : Nearest w y) (h : v < w) : x ≤ y := by
  by_contra hlt
  rw [not_le] at hlt
  have hv := add_le_of_near hlt (hx.near y hy.representable)
  have hw := le_add_of_near hlt (hy.near x hx.representable)
  linarith

/-- A number that rounds to zero is at most half of the smallest one. -/
theorem le_of_eq_zero (h : Nearest v 0) : 2 * v ≤ 2 ^ (-1074 : ℤ) := by
  have := le_add_of_near (by positivity) (h.near _ Representable.tiny)
  linarith

end Nearest

end Oscillator.Double
