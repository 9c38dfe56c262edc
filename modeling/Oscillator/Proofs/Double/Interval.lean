import Oscillator.Proofs.Double.Operations

/-! # Rounding intervals

The numbers that round to a double lie between the middles to its neighbours; the middles themselves are
among them where the mantissa is even. Whatever is known exactly and lies in this interval is rounded to the
double, by products and quotients as well.
-/
namespace Oscillator.Double

open Float.Model Float.Model.UnpackedFloat

/-- The middle to the next smaller double. Below a power of two the doubles lie twice as close. -/
def lowEnd (m : ℕ) (e : ℤ) : ℚ :=
  (m - if m = 2 ^ 52 ∧ -1074 < e then 1 / 4 else 1 / 2) * 2 ^ e

/-- The middle to the next larger double. -/
def highEnd (m : ℕ) (e : ℤ) : ℚ := (m + 1 / 2) * 2 ^ e

/-- A number lies in the rounding interval of a double, whose ends count where the mantissa is even. -/
structure Covers (m : ℕ) (e : ℤ) (v : ℚ) : Prop where
  low_le : lowEnd m e ≤ v
  le_high : v ≤ highEnd m e
  of_odd : m % 2 = 1 → lowEnd m e < v ∧ v < highEnd m e

variable {m k : ℕ} {e T : ℤ} {v w : ℚ} {em : ExtendedMantissa}

theorem half_le_lowEnd (m : ℕ) (e : ℤ) : (m - 1 / 2 : ℚ) * 2 ^ e ≤ lowEnd m e := by
  rw [lowEnd]
  gcongr
  split <;> norm_num

/-- A whole number is what a mantissa rounds to if it is at most half a unit away, and less than that where
it is odd. -/
theorem Holds.roundedMantissa_eq (h : Holds em w) (hlow : k - 1 / 2 ≤ w) (hhigh : w ≤ k + 1 / 2)
    (hodd : k % 2 = 1 → (k : ℚ) - 1 / 2 < w ∧ w < k + 1 / 2) : em.roundedMantissa = k := by
  obtain ⟨m, r, s⟩ := em
  have nearest {n : ℕ} (hlt : (n : ℚ) < k + 1) (hlt' : (k : ℚ) < n + 1) : n = k := by
    have : n < k + 1 := by exact_mod_cast hlt
    have : k < n + 1 := by exact_mod_cast hlt'
    omega
  cases r with
  | false =>
    have hm : m = k := by
      cases s with
      | false =>
        simp only [Holds] at h
        exact nearest (by linarith) (by linarith)
      | true =>
        simp only [Holds] at h
        exact nearest (by linarith) (by linarith)
    cases s <;> exact hm
  | true =>
    cases s with
    | true =>
      simp only [Holds] at h
      change m + 1 = k
      exact nearest (by push_cast; linarith) (by push_cast; linarith)
    | false =>
      -- In the middle the even one of both neighbours is taken.
      simp only [Holds] at h
      have hle : (m : ℚ) ≤ k := by linarith
      have hle' : (k : ℚ) ≤ m + 1 := by linarith
      have hm : m ≤ k := by exact_mod_cast hle
      have hm' : k ≤ m + 1 := by exact_mod_cast hle'
      have heven : k % 2 ≠ 1 := fun hk => by
        obtain ⟨hlt, hlt'⟩ := hodd hk
        have : (k : ℚ) < m + 1 := by linarith
        have : (m : ℚ) < k := by linarith
        have : k < m + 1 := by exact_mod_cast ‹(k : ℚ) < m + 1›
        have : m < k := by exact_mod_cast ‹(m : ℚ) < k›
        omega
      change m + m % 2 = k
      omega

/-- A number of the interval is never at a higher place than the double, and it can be at a lower one only
just below a power of two. -/
theorem AtPlace.place_cases (h : AtPlace em T w) (hc : Canonical m e) (hv : Covers m e (w * 2 ^ T)) :
    T = e ∨ T = e - 1 ∧ m = 2 ^ 52 ∧ -1074 < e := by
  have hpos : (0 : ℚ) < 2 ^ e := by positivity
  have hlow := (half_le_lowEnd m e).trans hv.low_le
  have hhigh := hv.le_high
  rcases lt_trichotomy T e with hlt | rfl | hgt
  · have he : -1074 < e := h.low.trans_lt hlt
    have hm : 2 ^ 52 ≤ m := hc.full.resolve_right (by omega)
    have hm' : (2 : ℚ) ^ 52 ≤ m := by exact_mod_cast hm
    have hw : w * 2 ^ T < 2 ^ 53 * 2 ^ T := mul_lt_mul_of_pos_right h.lt (by positivity)
    rcases (Int.le_sub_one_of_lt hlt).lt_or_eq with hlt' | rfl
    · have hle : (2 : ℚ) ^ 53 * 2 ^ T ≤ 2 ^ 51 * 2 ^ e := calc
        (2 : ℚ) ^ 53 * 2 ^ T ≤ 2 ^ 53 * 2 ^ (e - 2) := by
          gcongr
          · norm_num
          · omega
        _ = 2 ^ 51 * 2 ^ e := by rw [zpow_sub₀ two_ne_zero]; ring
      have := lt_of_mul_lt_mul_right (hlow.trans_lt (hw.trans_le hle)) hpos.le
      linarith
    · have heq : (2 : ℚ) ^ 53 * 2 ^ (e - 1) = 2 ^ 52 * 2 ^ e := by rw [zpow_sub_one₀ two_ne_zero]; ring
      have hlt'' := lt_of_mul_lt_mul_right (hlow.trans_lt (hw.trans_eq heq)) hpos.le
      have : (m : ℚ) < 2 ^ 52 + 1 := by linarith
      have : m < 2 ^ 52 + 1 := by exact_mod_cast this
      exact .inr ⟨rfl, by omega, he⟩
  · exact .inl rfl
  · exfalso
    have hfull : (2 : ℚ) ^ 52 ≤ w := h.full.resolve_left (by have := hc.le; omega)
    have hm : (m : ℚ) + 1 ≤ 2 ^ 53 := by exact_mod_cast hc.lt
    have hle : (2 : ℚ) ^ 53 * 2 ^ e ≤ w * 2 ^ T := calc
      (2 : ℚ) ^ 53 * 2 ^ e = 2 ^ 52 * 2 ^ (e + 1) := by rw [zpow_add_one₀ two_ne_zero]; ring
      _ ≤ w * 2 ^ T := mul_le_mul hfull (zpow_le_zpow_right₀ one_le_two hgt) (by positivity) (by linarith)
    have := le_of_mul_le_mul_right (hle.trans hhigh) hpos
    linarith

/-- In its place a number of the interval has a mantissa that rounds to the double. -/
theorem AtPlace.roundedMantissa_eq (h : AtPlace em T w) (hc : Canonical m e)
    (hv : Covers m e (w * 2 ^ T)) : (em.roundedMantissa : ℚ) * 2 ^ T = m * 2 ^ e := by
  have hpos : (0 : ℚ) < 2 ^ T := by positivity
  rcases h.place_cases hc hv with rfl | ⟨rfl, rfl, he⟩
  · have hlow := (half_le_lowEnd m T).trans hv.low_le
    rw [h.holds.roundedMantissa_eq (le_of_mul_le_mul_right hlow hpos)
      (le_of_mul_le_mul_right hv.le_high hpos) fun hodd => ?_]
    obtain ⟨hlow', hhigh'⟩ := hv.of_odd hodd
    exact ⟨lt_of_mul_lt_mul_right ((half_le_lowEnd m T).trans_lt hlow') hpos.le,
      lt_of_mul_lt_mul_right hhigh' hpos.le⟩
  · have hlow := hv.low_le
    have hpower : (2 : ℚ) ^ e = 2 * 2 ^ (e - 1) := by rw [zpow_sub_one₀ two_ne_zero]; ring
    rw [lowEnd, if_pos ⟨rfl, he⟩, hpower, ← mul_assoc] at hlow
    have hw := le_of_mul_le_mul_right hlow hpos
    have hround : em.roundedMantissa = 2 ^ 53 := by
      refine h.holds.roundedMantissa_eq ?_ ?_ fun hodd => ?_
      · push_cast at hw ⊢
        linarith
      · have := h.lt
        push_cast
        linarith
      · norm_num at hodd
    rw [hround, hpower]
    push_cast
    ring

theorem Canonical.eq_of_value {m' : ℕ} {e' : ℤ} (h : Canonical m e) (h' : Canonical m' e')
    (hv : (m : ℚ) * 2 ^ e = m' * 2 ^ e') : m = m' ∧ e = e' := by
  have hlt := mt (h.lt_iff h').mpr hv.not_lt
  have hgt := mt (h'.lt_iff h).mpr hv.not_gt
  omega

/-- What is known exactly and lies in the interval of a double is rounded to it. -/
theorem roundWithAccuracy_eq {m' : ℕ} {e' : ℤ} {accuracy : Accuracy} (sign : Sign)
    (hw : Holds (.ofMantissaAndAccuracy m' accuracy) w)
    (he : e' ≤ Format.binary64.targetExponent (totalExponent m' e')) (hm : 0 < m) (hc : Canonical m e)
    (hv : Covers m e (w * 2 ^ e')) :
    roundWithAccuracy Format.binary64 sign m' e' accuracy = .finite sign m e hm := by
  obtain ⟨em, T, u, hshift, hplace, hvalue⟩ := shiftToTargetExponent_atPlace hw he
  obtain ⟨hc', hvalue'⟩ := hplace.canonical
  rw [← hvalue] at hv
  obtain ⟨hmantissa, hexponent⟩ := hc'.eq_of_value hc (hvalue'.trans (hplace.roundedMantissa_eq hc hv))
  simp only [roundWithAccuracy, hshift]
  rw [dif_neg (by rw [hmantissa]; exact hm.ne'), finite.injEq]
  exact ⟨rfl, hmantissa, hexponent⟩

section

variable (hm : 0 < m) (hc : Canonical m e)

include hc

theorem HasValue.mul_eq {x y : UnpackedFloat} (hx : HasValue x v) (hy : HasValue y w) (hv : 0 < v)
    (hw : 0 < w) (h : Covers m e (v * w)) :
    UnpackedFloat.mul Format.binary64 x y = .finite .positive m e hm := by
  cases hx with
  | zero => exact absurd hv (lt_irrefl _)
  | @finite a i ha hca hi =>
    cases hy with
    | zero => exact absurd hw (lt_irrefl _)
    | @finite b j hb hcb hj =>
      refine roundWithAccuracy_eq .positive (holds_exact _) (hca.exponent_mul_le ha hcb hb) hm hc ?_
      convert h using 1
      rw [zpow_add₀ two_ne_zero]
      push_cast
      ring

theorem div_finite_eq {a b : ℕ} {i j : ℤ} (ha : 0 < a) (hb : 0 < b)
    (h : Covers m e (a * 2 ^ i / (b * 2 ^ j))) :
    UnpackedFloat.div Format.binary64 (.finite .positive a i ha) (.finite .positive b j hb) =
      .finite .positive m e hm := by
  obtain ⟨w, hw, hd, hvalue⟩ := divCore_holds i j ha hb
  rw [← hvalue] at h
  exact roundWithAccuracy_eq (.positive / .positive) hw hd hm hc h

theorem HasValue.div_eq {x y : UnpackedFloat} (hx : HasValue x v) (hy : HasValue y w) (hv : 0 < v)
    (hw : 0 < w) (h : Covers m e (v / w)) :
    UnpackedFloat.div Format.binary64 x y = .finite .positive m e hm := by
  cases hx with
  | zero => exact absurd hv (lt_irrefl _)
  | @finite a i ha hca hi =>
    cases hy with
    | zero => exact absurd hw (lt_irrefl _)
    | @finite b j hb hcb hj => exact div_finite_eq hm hc ha hb h

/-- A whole number is read as the double in whose interval it lies. -/
theorem ofScientific_whole {d : ℕ} (hd : 0 < d) (h : Covers m e d) :
    Float.ofScientific d false 0 = .ofModel (.pack (.finite .positive m e hm)) := by
  have hd' : (0 : ℚ) < d := Nat.cast_pos.mpr hd
  by_cases hlt : d < 2 ^ 53
  · have hone := valued_powerOfTen (Nat.zero_le 22)
    rw [pow_zero, Nat.cast_one] at hone
    rw [Float.ofScientific, dif_pos ⟨hlt, Nat.zero_le 22⟩]
    exact congrArg (fun u => Float.ofModel (.pack u))
      (HasValue.mul_eq hm hc (valued_toFloat hlt) hone hd' one_pos (by rwa [mul_one]))
  · rw [ofScientific_whole_eq (by omega), roundWithAccuracy_eq .positive (holds_exact _)
      (shiftLeft_spare hd.ne') hm hc (by rwa [shiftLeft_value])]

/-- Digits behind a point are read as the double in whose interval their value lies. -/
theorem ofScientific_places {d p : ℕ} (hd : 0 < d) (hpos : 0 < p) (hp : p ≤ 2048 + d.log2)
    (h : Covers m e (d / 10 ^ p)) :
    Float.ofScientific d true p = .ofModel (.pack (.finite .positive m e hm)) := by
  have hd' : (0 : ℚ) < d := Nat.cast_pos.mpr hd
  by_cases hshort : d < 2 ^ 53 ∧ p ≤ 22
  · rw [Float.ofScientific, dif_pos hshort]
    exact congrArg (fun u => Float.ofModel (.pack u))
      (HasValue.div_eq hm hc (valued_toFloat hshort.1) (valued_powerOfTen hshort.2) hd' (by positivity)
        (by rwa [Nat.cast_pow, Nat.cast_ofNat]))
  · have hmodel : Float.ofScientific d true p = .ofModel (.ofScientific d (-p)) := by
      rw [Float.ofScientific, dif_neg hshort, if_pos rfl, Int.negOfNat_eq]
      rfl
    have hquotient : UnpackedFloat.ofScientific Format.binary64 d (-p) =
        UnpackedFloat.div Format.binary64 (.finite .positive d 0 hd)
          (.finite .positive (10 ^ p) 0 (Nat.pow_pos (by decide))) := by
      have hbits : (2 : ℤ) ^ Format.binary64.exponentBits = 2048 := by norm_num
      rw [UnpackedFloat.ofScientific, dif_neg hd.ne', hbits, if_neg (by omega), if_neg (by omega),
        if_neg (by omega)]
      simp only [neg_neg, Int.toNat_natCast]
    have hvalue : Covers m e (d * 2 ^ (0 : ℤ) / ((10 ^ p : ℕ) * 2 ^ (0 : ℤ))) := by
      rwa [zpow_zero, mul_one, mul_one, Nat.cast_pow, Nat.cast_ofNat]
    rw [hmodel, Float.Model.ofScientific, hquotient, div_finite_eq hm hc hd _ hvalue]

end

end Oscillator.Double
