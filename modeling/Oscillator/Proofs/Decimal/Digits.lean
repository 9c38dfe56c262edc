import Mathlib
import Oscillator.Decimal.Significant

/-! # Digits

What the counts and shifts of decimal digits say of the numbers that they are made for.
-/
namespace Oscillator.Decimal

theorem digitCount_pos (n : ℕ) : 0 < digitCount n := by
  rw [digitCount]
  split <;> omega

theorem lt_pow_digitCount (n : ℕ) : n < 10 ^ digitCount n := by
  fun_induction digitCount n with
  | case1 n h => simpa using h
  | case2 n h ih =>
    rw [pow_succ]
    omega

theorem pow_digitCount_le {n : ℕ} (hn : 0 < n) : 10 ^ (digitCount n - 1) ≤ n := by
  fun_induction digitCount n with
  | case1 n h => simpa using Nat.succ_le_of_lt hn
  | case2 n h ih =>
    have hpos := digitCount_pos (n / 10)
    have := ih (by omega)
    calc 10 ^ (digitCount (n / 10) + 1 - 1) = 10 ^ (digitCount (n / 10) - 1) * 10 := by
          rw [← pow_succ]
          congr 1
          omega
      _ ≤ n / 10 * 10 := by gcongr
      _ ≤ n := Nat.div_mul_le_self n 10

/-- A fraction is not below the place of its first digit. -/
theorem pow_leadingExponent_le {num den : ℕ} (hn : 0 < num) (hd : 0 < den) :
    (10 : ℚ) ^ leadingExponent num den ≤ num / den := by
  have hn' : (0 : ℚ) < num := Nat.cast_pos.mpr hn
  have hd' : (0 : ℚ) < den := Nat.cast_pos.mpr hd
  rw [leadingExponent]
  split
  case isTrue hle =>
    have hquotient : 0 < num / den := Nat.div_pos hle hd
    have hexp : (digitCount (num / den) : ℤ) - 1 = (digitCount (num / den) - 1 : ℕ) := by
      have := digitCount_pos (num / den)
      omega
    rw [hexp, zpow_natCast]
    calc (10 : ℚ) ^ (digitCount (num / den) - 1) ≤ (num / den : ℕ) := by
          exact_mod_cast pow_digitCount_le hquotient
      _ ≤ num / den := Nat.cast_div_le
  case isFalse hlt =>
    -- The denominator is at most as many times the numerator as the power says.
    set q := (den + num - 1) / num with hq
    have hq1 : 1 ≤ q := by
      rw [hq, Nat.one_le_div_iff hn]
      omega
    have hden : den ≤ num * q := by
      have := Nat.lt_mul_div_succ (den + num - 1) hn
      rw [← hq, Nat.mul_succ] at this
      omega
    have hpow : q ≤ 10 ^ digitCount (q - 1) := by
      have := lt_pow_digitCount (q - 1)
      omega
    have hbound : (den : ℚ) ≤ num * 10 ^ digitCount (q - 1) := by
      exact_mod_cast hden.trans (Nat.mul_le_mul_left num hpow)
    rw [zpow_neg, zpow_natCast, inv_le_comm₀ (by positivity) (by positivity), inv_div, div_le_iff₀ hn',
      mul_comm]
    exact hbound

/-- Units and scale are positive, and their quotient is the fraction in units of the power of ten. -/
theorem inUnits_spec {num den : ℕ} (hn : 0 < num) (hd : 0 < den) (k : ℤ) :
    0 < (inUnits num den k).1 ∧ 0 < (inUnits num den k).2 ∧
      ((inUnits num den k).1 : ℚ) / (inUnits num den k).2 * 10 ^ k = num / den := by
  rw [inUnits]
  split
  case isTrue hk =>
    obtain ⟨n, rfl⟩ := Int.eq_ofNat_of_zero_le hk
    refine ⟨hn, Nat.mul_pos hd (Nat.pow_pos (by norm_num)), ?_⟩
    rw [Int.toNat_natCast, zpow_natCast]
    push_cast [Nat.pow_eq]
    field_simp
  case isFalse hk =>
    obtain ⟨n, hn'⟩ : ∃ n : ℕ, (-k).toNat = n := ⟨_, rfl⟩
    obtain rfl : k = -(n : ℤ) := by omega
    refine ⟨Nat.mul_pos hn (Nat.pow_pos (by norm_num)), hd, ?_⟩
    rw [hn', zpow_neg, zpow_natCast]
    push_cast [Nat.pow_eq]
    field_simp

theorem stripZeros_value (d : ℕ) (k : ℤ) :
    ((stripZeros d k).1 : ℚ) * 10 ^ (stripZeros d k).2 = d * 10 ^ k := by
  fun_induction stripZeros d k with
  | case1 d k h ih =>
    have hd : (d : ℚ) = (d / 10 : ℕ) * 10 := by
      exact_mod_cast (Nat.div_mul_cancel (Nat.dvd_of_mod_eq_zero h.2)).symm
    rw [ih, hd, zpow_add_one₀ (by norm_num)]
    ring
  | case2 d k h => rfl

end Oscillator.Decimal
