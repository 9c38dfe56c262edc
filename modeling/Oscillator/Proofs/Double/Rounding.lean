import Oscillator.Proofs.Double.Nearest

/-! # Rounding

The model of rounding shifts a mantissa to its place and keeps two bits of what falls off. These
bits tell on which side of the middle the number lies, and so the rounded mantissa is the nearest
whole one. At the place that the size of the number demands, it is the nearest double.
-/
namespace Oscillator.Double

open Float.Model Float.Model.UnpackedFloat

/-- A mantissa of full length, or one at the lowest place. -/
structure Canonical (m : ℕ) (e : ℤ) : Prop where
  lt : m < 2 ^ 53
  le : -1074 ≤ e
  full : 2 ^ 52 ≤ m ∨ e = -1074

theorem Canonical.representable {m : ℕ} {e : ℤ} (h : Canonical m e) : Representable (m * 2 ^ e) :=
  ⟨m, e, h.lt, h.le, rfl⟩

/-- The number that the two bits behind a mantissa tell of: the mantissa, the middle between it and
the next one, or one of the open halves around the middle. -/
def Holds (em : ExtendedMantissa) (v : ℚ) : Prop :=
  match em.roundBit, em.stickyBit with
  | false, false => v = em.mantissa
  | false, true => em.mantissa < v ∧ v < em.mantissa + 1 / 2
  | true, false => v = em.mantissa + 1 / 2
  | true, true => em.mantissa + 1 / 2 < v ∧ v < em.mantissa + 1

namespace Holds

variable {em : ExtendedMantissa} {v : ℚ}

theorem le (h : Holds em v) : em.mantissa ≤ v := by
  obtain ⟨m, r, s⟩ := em
  cases r <;> cases s <;> simp only [Holds] at h ⊢ <;> linarith

theorem lt (h : Holds em v) : v < em.mantissa + 1 := by
  obtain ⟨m, r, s⟩ := em
  cases r <;> cases s <;> simp only [Holds] at h ⊢ <;> linarith

/-- A shift makes the last digit the first bit behind the mantissa, and both bits before it fall
into the second one. -/
theorem shiftRightOne (h : Holds em v) : Holds em.shiftRightOne (v / 2) := by
  obtain ⟨m, r, s⟩ := em
  have hm : (m : ℚ) = 2 * (m / 2 : ℕ) + (m % 2 : ℕ) := by exact_mod_cast (Nat.div_add_mod m 2).symm
  -- By the last digit and the two bits; every case is linear in the shifted mantissa.
  rcases Nat.mod_two_eq_zero_or_one m with hp | hp
  all_goals
    rw [hp] at hm
    push_cast at hm
    cases r <;> cases s <;>
      simp only [Holds, ExtendedMantissa.shiftRightOne, hp, hm] at h ⊢ <;> simp <;>
      first | linarith | constructor <;> linarith

theorem shiftRight (h : Holds em v) (n : ℕ) : Holds (em >>> n) (v / 2 ^ n) := by
  induction n with
  | zero =>
    rw [pow_zero, div_one]
    exact h
  | succ n ih =>
    rw [pow_succ, ← div_div]
    exact ih.shiftRightOne

theorem abs_roundedMantissa_sub_le (h : Holds em v) :
    |(em.roundedMantissa : ℚ) - v| ≤ v - em.mantissa ∧
      |(em.roundedMantissa : ℚ) - v| ≤ em.mantissa + 1 - v := by
  obtain ⟨m, r, s⟩ := em
  -- The last digit matters only in the middle, where both neighbours are equally near.
  rcases Nat.mod_two_eq_zero_or_one m with hp | hp
  all_goals
    cases r <;> cases s <;>
      simp only [Holds, ExtendedMantissa.roundedMantissa, ExtendedMantissa.accuracy,
        Accuracy.roundToNearestEven, hp] at h ⊢ <;>
      push_cast <;> constructor <;> rw [abs_le] <;> constructor <;> linarith

/-- No whole number is nearer than the rounded mantissa: all of them are outside of the two that it
is chosen from. -/
theorem near (h : Holds em v) (k : ℤ) : |(em.roundedMantissa : ℚ) - v| ≤ |k - v| := by
  obtain ⟨hlo, hhi⟩ := h.abs_roundedMantissa_sub_le
  rcases lt_or_ge (em.mantissa : ℤ) k with hlt | hle
  · have hk : (em.mantissa : ℚ) + 1 ≤ k := by exact_mod_cast hlt
    exact hhi.trans ((by linarith : em.mantissa + 1 - v ≤ k - v).trans (le_abs_self _))
  · have hk : (k : ℚ) ≤ em.mantissa := by exact_mod_cast hle
    exact hlo.trans ((by linarith : v - em.mantissa ≤ -(k - v)).trans (neg_le_abs _))

theorem roundedMantissa_le (h : Holds em v) {k : ℕ} (hk : v ≤ k) : em.roundedMantissa ≤ k := by
  have := h.near k
  rw [Int.cast_natCast, abs_of_nonneg (by linarith : (k : ℚ) - v ≥ 0)] at this
  have : (em.roundedMantissa : ℚ) ≤ k := by linarith [le_abs_self ((em.roundedMantissa : ℚ) - v)]
  exact_mod_cast this

theorem le_roundedMantissa (h : Holds em v) {k : ℕ} (hk : k ≤ v) : k ≤ em.roundedMantissa := by
  have := h.near k
  rw [Int.cast_natCast, abs_of_nonpos (by linarith : (k : ℚ) - v ≤ 0)] at this
  have : (k : ℚ) ≤ em.roundedMantissa := by linarith [neg_le_abs ((em.roundedMantissa : ℚ) - v)]
  exact_mod_cast this

end Holds

/-- At the place of the last digit the nearest whole number is the nearest double. A double with
digits behind that place is too small to be nearer. -/
theorem nearest_of_near {k : ℕ} {T : ℤ} {w : ℚ} (hk : ∀ K : ℤ, |(k : ℚ) - w| ≤ |K - w|)
    (hw : T = -1074 ∨ 2 ^ 52 ≤ w) (hr : Representable (k * 2 ^ T)) :
    Nearest (w * 2 ^ T) (k * 2 ^ T) := by
  have hpos : (0 : ℚ) < 2 ^ T := by positivity
  have hscale (K : ℤ) : |(k : ℚ) * 2 ^ T - w * 2 ^ T| ≤ |K * 2 ^ T - w * 2 ^ T| := by
    rw [← sub_mul, ← sub_mul, abs_mul, abs_mul]
    exact mul_le_mul_of_nonneg_right (hk K) (abs_nonneg _)
  refine ⟨hr, ?_⟩
  rintro _ ⟨m, e, hm, he, rfl⟩
  rcases le_or_gt T e with hle | hlt
  · -- A double whose last digit is not behind the place is a whole number there.
    obtain ⟨d, rfl⟩ := Int.le.dest hle
    have := hscale (m * 2 ^ d)
    push_cast at this
    rwa [mul_assoc, ← zpow_natCast, ← zpow_add₀ two_ne_zero, add_comm (d : ℤ)] at this
  · obtain hw : (2 : ℚ) ^ 52 ≤ w := hw.resolve_left (by omega)
    have hu : (m : ℚ) * 2 ^ e ≤ 2 ^ 52 * 2 ^ T := calc
      (m : ℚ) * 2 ^ e ≤ 2 ^ 53 * 2 ^ (T - 1) := by
        gcongr
        · exact_mod_cast hm.le
        · norm_num
        · omega
      _ = 2 ^ 52 * 2 ^ T := by rw [zpow_sub_one₀ two_ne_zero]; ring
    have hv : (2 : ℚ) ^ 52 * 2 ^ T ≤ w * 2 ^ T := by gcongr
    have := hscale (2 ^ 52)
    rw [Int.cast_pow, Int.cast_ofNat, abs_of_nonpos (by linarith : (2 : ℚ) ^ 52 * 2 ^ T - w * 2 ^ T ≤ 0)]
      at this
    rw [abs_of_nonpos (by linarith : (m : ℚ) * 2 ^ e - w * 2 ^ T ≤ 0)]
    linarith

theorem targetExponent_eq (t : ℤ) : Format.binary64.targetExponent t = max (t - 53) (-1074) := rfl

/-- The last digit comes to stand at a place that leaves 53 digits. -/
theorem shifted_bounds {m n : ℕ} {e T : ℤ} {v : ℚ} (hm : m ≤ v) (hv : v < m + 1)
    (hT : T = max (totalExponent m e - 53) (-1074)) (hn : T = e + n) :
    v / 2 ^ n < 2 ^ 53 ∧ (T = -1074 ∨ 2 ^ 52 ≤ v / 2 ^ n) := by
  rw [totalExponent] at hT
  constructor
  · rw [div_lt_iff₀ (by positivity)]
    calc v < m + 1 := hv
      _ ≤ 2 ^ (m.log2 + 1) := by exact_mod_cast Nat.lt_log2_self
      _ ≤ 2 ^ (53 + n) := pow_le_pow_right₀ one_le_two (by omega)
      _ = 2 ^ 53 * 2 ^ n := pow_add ..
  · by_cases hmin : T = -1074
    · exact .inl hmin
    · right
      have hl : m.log2 = 52 + n := by omega
      have hne : m ≠ 0 := by
        rintro rfl
        simp only [Nat.log2_zero] at hl
        omega
      rw [le_div_iff₀ (by positivity), ← pow_add, ← hl]
      refine le_trans ?_ hm
      exact_mod_cast Nat.log2_self_le hne

theorem mantissa_ofMantissaAndAccuracy (m : ℕ) (accuracy : Accuracy) :
    (ExtendedMantissa.ofMantissaAndAccuracy m accuracy).mantissa = m := by
  rcases accuracy with _ | _ | _ | _ <;> rfl

theorem holds_exact (m : ℕ) : Holds (.ofMantissaAndAccuracy m .exact) m := rfl

/-- A signed double whose size is rounded from a number. -/
inductive Rounded (v : ℚ) (sign : Sign) : UnpackedFloat → Prop where
  | zero (h : Nearest v 0) : Rounded v sign (.zero sign)
  | finite {m : ℕ} {e : ℤ} {hm : 0 < m} (hc : Canonical m e) (h : Nearest v (m * 2 ^ e)) :
    Rounded v sign (.finite sign m e hm)

theorem Rounded.of_mantissa {v : ℚ} {sign : Sign} {m : ℕ} {e : ℤ} (hc : Canonical m e)
    (h : Nearest v (m * 2 ^ e)) :
    Rounded v sign (if hm : m = 0 then .zero sign else .finite sign m e (Nat.pos_of_ne_zero hm)) := by
  split
  case isTrue hm =>
    subst hm
    exact .zero (by simpa using h)
  case isFalse hm => exact .finite hc h

/-- A second shift is only due where rounding has filled up a mantissa to a power of two. -/
theorem shiftToTargetExponent_rounded {k : ℕ} {T : ℤ} (hk : k ≤ 2 ^ 53) (hT : -1074 ≤ T)
    (hfull : T = -1074 ∨ 2 ^ 52 ≤ k) :
    let (em, e) := shiftToTargetExponent Format.binary64 k T .exact
    Canonical em.mantissa e ∧ (em.mantissa : ℚ) * 2 ^ e = k * 2 ^ T := by
  rcases hk.lt_or_eq with hlt | rfl
  · have hl : k.log2 < 53 := by
      by_cases hz : k = 0
      · simp [hz]
      · exact (Nat.log2_lt hz).mpr hlt
    have hn : (max (totalExponent k T - 53) (-1074) - T).toNat = 0 := by
      rw [totalExponent]
      omega
    simp only [shiftToTargetExponent, shiftToExponent, targetExponent_eq, hn]
    rw [Nat.cast_zero, add_zero]
    exact ⟨⟨hlt, hT, hfull.symm⟩, rfl⟩
  · have hn : (max (totalExponent (2 ^ 53) T - 53) (-1074) - T).toNat = 1 := by
      rw [totalExponent, Nat.log2_two_pow]
      omega
    simp only [shiftToTargetExponent, shiftToExponent, targetExponent_eq, hn]
    change Canonical (2 ^ 53 / 2) _ ∧ ((2 ^ 53 / 2 : ℕ) : ℚ) * _ = _
    refine ⟨⟨by norm_num, by omega, .inl (by norm_num)⟩, ?_⟩
    rw [Nat.cast_one, zpow_add_one₀ two_ne_zero]
    norm_num
    ring

/-- A mantissa with its last digit at the place where the nearest double has it. -/
structure AtPlace (em : ExtendedMantissa) (T : ℤ) (w : ℚ) : Prop where
  holds : Holds em w
  lt : w < 2 ^ 53
  low : -1074 ≤ T
  full : T = -1074 ∨ 2 ^ 52 ≤ w

/-- The first shift brings a mantissa with digits to spare to its place. -/
theorem shiftToTargetExponent_atPlace {m : ℕ} {e : ℤ} {accuracy : Accuracy} {v : ℚ}
    (hv : Holds (.ofMantissaAndAccuracy m accuracy) v)
    (he : e ≤ Format.binary64.targetExponent (totalExponent m e)) :
    ∃ em T w, shiftToTargetExponent Format.binary64 m e accuracy = (em, T) ∧ AtPlace em T w ∧
      w * 2 ^ T = v * 2 ^ e := by
  set T := Format.binary64.targetExponent (totalExponent m e) with hT
  obtain ⟨n, hn⟩ := Int.le.dest he
  rw [targetExponent_eq] at hT
  have hm := hv.le
  have hm' := hv.lt
  rw [mantissa_ofMantissaAndAccuracy] at hm hm'
  obtain ⟨hlt, hfull⟩ := shifted_bounds hm hm' hT hn.symm
  have hshift : shiftToTargetExponent Format.binary64 m e accuracy =
      (ExtendedMantissa.ofMantissaAndAccuracy m accuracy >>> n, T) := by
    have hn' : (T - e).toNat = n := by omega
    simp only [shiftToTargetExponent, shiftToExponent, targetExponent_eq, ← hT, hn', hn]
  have hvalue : v / 2 ^ n * 2 ^ T = v * 2 ^ e := by
    rw [← hn, zpow_add₀ two_ne_zero, zpow_natCast]
    field_simp
  exact ⟨_, T, _, hshift, ⟨hv.shiftRight n, hlt, by omega, hfull⟩, hvalue⟩

namespace AtPlace

variable {em : ExtendedMantissa} {T : ℤ} {w : ℚ}

theorem roundedMantissa_le (h : AtPlace em T w) : em.roundedMantissa ≤ 2 ^ 53 :=
  h.holds.roundedMantissa_le (by exact_mod_cast h.lt.le)

/-- The second shift puts what has been rounded into canonical form. -/
theorem canonical (h : AtPlace em T w) :
    let shifted := shiftToTargetExponent Format.binary64 em.roundedMantissa T .exact
    Canonical shifted.1.mantissa shifted.2 ∧
      (shifted.1.mantissa : ℚ) * 2 ^ shifted.2 = em.roundedMantissa * 2 ^ T :=
  shiftToTargetExponent_rounded h.roundedMantissa_le h.low
    (h.full.imp_right fun hfull => h.holds.le_roundedMantissa (by exact_mod_cast hfull))

end AtPlace

/-- Rounding a mantissa with digits to spare gives the nearest double. -/
theorem roundWithAccuracy_rounded {m : ℕ} {e : ℤ} {accuracy : Accuracy} {v : ℚ} (sign : Sign)
    (hv : Holds (.ofMantissaAndAccuracy m accuracy) v)
    (he : e ≤ Format.binary64.targetExponent (totalExponent m e)) :
    Rounded (v * 2 ^ e) sign (roundWithAccuracy Format.binary64 sign m e accuracy) := by
  obtain ⟨em, T, w, hshift, hplace, hvalue⟩ := shiftToTargetExponent_atPlace hv he
  obtain ⟨hc, hval⟩ := hplace.canonical
  have hnear := nearest_of_near hplace.holds.near hplace.full (hval ▸ hc.representable)
  rw [hvalue, ← hval] at hnear
  simp only [roundWithAccuracy, hshift]
  exact .of_mantissa hc hnear

end Oscillator.Double
