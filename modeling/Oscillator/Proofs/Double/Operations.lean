import Oscillator.Proofs.Double.Value
import Oscillator.Arithmetic

/-! # Operations on doubles

Quotients, sums and products of doubles without a minus are the exact results, rounded. So are
conversions of whole numbers, which are exact below `2 ^ 53`, and rounding down is always exact.
-/
namespace Oscillator.Double

open Float.Model Float.Model.UnpackedFloat

theorem Nearest.refl {v : ℚ} (h : Representable v) : Nearest v v :=
  ⟨h, fun u _ => by rw [sub_self, abs_zero]; exact abs_nonneg _⟩

theorem Valued.roundsTo {x : Float} {v : ℚ} (h : Valued x v) : RoundsTo v x :=
  ⟨v, .refl h.representable, .inl h⟩

section

variable {m n : ℕ} {e : ℤ}

theorem log2_mul_two_pow (hm : m ≠ 0) : (m * 2 ^ n).log2 = m.log2 + n := by
  rw [Nat.log2_eq_iff (by positivity)]
  have h := Nat.log2_self_le hm
  have h' := Nat.lt_log2_self (n := m)
  constructor
  · rw [pow_add]
    gcongr
  · rw [add_right_comm, pow_add]
    gcongr

/-- Digits are added behind a mantissa that is too short. -/
theorem round_rounded (sign : Sign) (hm : m ≠ 0) :
    Rounded (m * 2 ^ e) sign (UnpackedFloat.round Format.binary64 sign m e) := by
  set T := Format.binary64.targetExponent (totalExponent m e) with hT
  obtain ⟨n, hn⟩ : ∃ n : ℕ, (e - T).toNat = n := ⟨_, rfl⟩
  have hround : UnpackedFloat.round Format.binary64 sign m e =
      roundWithAccuracy Format.binary64 sign (m * 2 ^ n) (e - n) .exact := by
    simp only [UnpackedFloat.round, decreaseExponent, ← hT, hn, Nat.shiftLeft_eq]
  have hvalue : (m : ℚ) * 2 ^ e = (m * 2 ^ n : ℕ) * 2 ^ (e - n) := by
    push_cast
    rw [mul_assoc, ← zpow_natCast, ← zpow_add₀ two_ne_zero]
    congr 2
    omega
  rw [hround, hvalue]
  refine roundWithAccuracy_rounded sign (holds_exact _) ?_
  rw [totalExponent, log2_mul_two_pow hm]
  rw [targetExponent_eq, totalExponent] at hT
  rw [targetExponent_eq]
  omega

theorem shift_value {d : ℤ} (h : d ≤ e) :
    ((m <<< (e - d).toNat : ℕ) : ℚ) * 2 ^ d = m * 2 ^ e := by
  rw [Nat.shiftLeft_eq]
  push_cast
  rw [mul_assoc, ← zpow_natCast, ← zpow_add₀ two_ne_zero]
  congr 2
  omega

theorem normalize_rounded (zeroSign : Sign) (hm : m ≠ 0) :
    Rounded (m * 2 ^ e) .positive (UnpackedFloat.normalize Format.binary64 m e zeroSign) := by
  have hc : compare (m : ℤ) 0 = .gt := compare_gt_iff_gt.mpr (by omega)
  rw [UnpackedFloat.normalize, hc]
  exact round_rounded .positive hm

end

section

variable {x y : UnpackedFloat} {v w : ℚ}

theorem HasValue.add (hx : HasValue x v) (hy : HasValue y w) :
    RoundsTo (v + w) (.ofModel (.pack (UnpackedFloat.add Format.binary64 x y))) := by
  cases hx with
  | @zero s =>
    rw [zero_add]
    cases hy with
    | @zero s' =>
      refine Valued.roundsTo ?_
      simp only [UnpackedFloat.add]
      split <;> exact HasValue.zero.pack
    | finite hc he => exact (HasValue.finite hc he).pack.roundsTo
  | @finite m e hm hc he =>
    cases hy with
    | zero =>
      rw [add_zero]
      exact (HasValue.finite hc he).pack.roundsTo
    | @finite m' e' hm' hc' he' =>
      have hne : m <<< (e - min e e').toNat + m' <<< (e' - min e e').toNat ≠ 0 := by
        rw [Nat.shiftLeft_eq, Nat.shiftLeft_eq]
        positivity
      have h := normalize_rounded (e := min e e') .positive hne
      rw [Nat.cast_add, add_mul, shift_value (min_le_left ..), shift_value (min_le_right ..)] at h
      exact h.roundsTo

/-- The mantissas of two factors give digits to spare. -/
theorem Canonical.exponent_mul_le {m m' : ℕ} {e e' : ℤ} (hc : Canonical m e) (hm : 0 < m)
    (hc' : Canonical m' e') (hm' : 0 < m') :
    e + e' ≤ Format.binary64.targetExponent (totalExponent (m * m') (e + e')) := by
  rw [targetExponent_eq, totalExponent]
  rcases le_or_gt (e + e') (-1074) with hlow | hhigh
  · exact hlow.trans (le_max_right ..)
  · -- One factor is of full length, or the last place would be the lowest one.
    have hfull : 2 ^ 52 ≤ m * m' := by
      rcases hc.full with h | rfl
      · exact h.trans (Nat.le_mul_of_pos_right m hm')
      · exact (hc'.full.resolve_right (by omega)).trans (Nat.le_mul_of_pos_left m' hm)
    have := (Nat.le_log2 (by positivity)).mpr hfull
    omega

theorem HasValue.mul (hx : HasValue x v) (hy : HasValue y w) :
    RoundsTo (v * w) (.ofModel (.pack (UnpackedFloat.mul Format.binary64 x y))) := by
  cases hx with
  | zero =>
    rw [zero_mul]
    cases hy <;> exact HasValue.zero.pack.roundsTo
  | @finite m e hm hc he =>
    cases hy with
    | zero =>
      rw [mul_zero]
      exact HasValue.zero.pack.roundsTo
    | @finite m' e' hm' hc' he' =>
      have hvalue : (m : ℚ) * 2 ^ e * (m' * 2 ^ e') = (m * m' : ℕ) * 2 ^ (e + e') := by
        rw [zpow_add₀ two_ne_zero]
        push_cast
        ring
      rw [hvalue]
      exact (roundWithAccuracy_rounded .positive (holds_exact _)
        (hc.exponent_mul_le hm hc' hm')).roundsTo

/-- The remainder of a division tells where the quotient lies between two whole numbers. -/
theorem holds_quotient (m : ℕ) {d : ℕ} (hd : 0 < d) :
    Holds (.ofMantissaAndAccuracy (m / d) (accuracyOfFraction (m % d) d)) (m / d) := by
  have hd' : (0 : ℚ) < d := by exact_mod_cast hd
  have hm : (m : ℚ) / d = (m / d : ℕ) + (m % d : ℕ) / d := by
    have : (m : ℚ) = d * (m / d : ℕ) + (m % d : ℕ) := by exact_mod_cast (Nat.div_add_mod m d).symm
    rw [div_eq_iff hd'.ne', add_mul, div_mul_cancel₀ _ hd'.ne', this]
    ring
  rw [accuracyOfFraction, hm]
  split
  case isTrue h =>
    rw [h, Nat.cast_zero, zero_div, add_zero]
    exact holds_exact _
  case isFalse h =>
    have hlt : ((m % d : ℕ) : ℚ) / d < 1 := by
      rw [div_lt_one hd']
      exact_mod_cast Nat.mod_lt m hd
    have hpos : 0 < ((m % d : ℕ) : ℚ) / d := div_pos (by exact_mod_cast Nat.pos_of_ne_zero h) hd'
    cases hc : compare (2 * (m % d)) d with
    | lt =>
      have : ((m % d : ℕ) : ℚ) * 2 < d := by
        exact_mod_cast mul_comm 2 (m % d) ▸ compare_lt_iff_lt.mp hc
      have : ((m % d : ℕ) : ℚ) / d < 1 / 2 := by rwa [div_lt_div_iff₀ hd' two_pos, one_mul]
      exact ⟨lt_add_of_pos_right _ hpos, add_lt_add_right this _⟩
    | eq =>
      have : ((m % d : ℕ) : ℚ) * 2 = d := by
        exact_mod_cast mul_comm 2 (m % d) ▸ compare_eq_iff_eq.mp hc
      have : ((m % d : ℕ) : ℚ) / d = 1 / 2 := by rwa [div_eq_div_iff hd'.ne' two_ne_zero, one_mul]
      rw [this]
      rfl
    | gt =>
      have : d < ((m % d : ℕ) : ℚ) * 2 := by
        exact_mod_cast mul_comm 2 (m % d) ▸ compare_gt_iff_gt.mp hc
      have : 1 / 2 < ((m % d : ℕ) : ℚ) / d := by rwa [div_lt_div_iff₀ two_pos hd', one_mul]
      exact ⟨add_lt_add_right this _, add_lt_add_right hlt _⟩

/-- The quotient of two mantissas has its last digit at the place of the nearest double or behind
it. -/
theorem divCore_holds {m m' : ℕ} (e e' : ℤ) (hm : 0 < m) (hm' : 0 < m') :
    let (q, d, accuracy) := divCore Format.binary64 m e m' e'
    ∃ w, Holds (.ofMantissaAndAccuracy q accuracy) w ∧
      d ≤ Format.binary64.targetExponent (totalExponent q d) ∧
      w * 2 ^ d = m * 2 ^ e / (m' * 2 ^ e') := by
  simp only [divCore]
  set T := Format.binary64.targetExponent (totalExponent m e - totalExponent m' e') with hT
  rw [targetExponent_eq, totalExponent, totalExponent] at hT
  set d := min (e - e') T with hd
  obtain ⟨n, hn⟩ : ∃ n : ℕ, (e - e' - d).toNat = n := ⟨_, rfl⟩
  have hvalue : (m : ℚ) * 2 ^ e / (m' * 2 ^ e') = ((m <<< n : ℕ) : ℚ) / m' * 2 ^ d := by
    have hshift := shift_value (m := m) (min_le_left (e - e') T)
    rw [← hd, hn] at hshift
    rw [div_mul_eq_mul_div, hshift, zpow_sub₀ two_ne_zero]
    field_simp
  rw [hn, hvalue]
  refine ⟨_, holds_quotient _ hm', ?_, rfl⟩
  rw [targetExponent_eq, totalExponent]
  rcases le_or_gt d (-1074) with hlow | hhigh
  · exact hlow.trans (le_max_right ..)
  · -- Above the lowest place the quotient of the mantissas has at least 53 digits.
    have hfull : 2 ^ 52 ≤ m <<< n / m' := by
      rw [Nat.le_div_iff_mul_le hm', Nat.shiftLeft_eq]
      calc 2 ^ 52 * m' ≤ 2 ^ 52 * 2 ^ (m'.log2 + 1) := by gcongr; exact Nat.lt_log2_self.le
        _ ≤ 2 ^ (m.log2 + n) := by
          rw [← pow_add]
          exact Nat.pow_le_pow_right two_pos (by omega)
        _ ≤ m * 2 ^ n := by
          rw [pow_add]
          gcongr
          exact Nat.log2_self_le hm.ne'
    have := (Nat.le_log2 (by omega)).mpr hfull
    omega

theorem divCore_rounded {m m' : ℕ} {e e' : ℤ} (hm : 0 < m) (hm' : 0 < m') :
    let (q, d, accuracy) := divCore Format.binary64 m e m' e'
    Rounded (m * 2 ^ e / (m' * 2 ^ e')) .positive
      (roundWithAccuracy Format.binary64 .positive q d accuracy) := by
  obtain ⟨w, hw, hd, hvalue⟩ := divCore_holds e e' hm hm'
  rw [← hvalue]
  exact roundWithAccuracy_rounded .positive hw hd

theorem HasValue.div (hx : HasValue x v) (hy : HasValue y w) (hw : 0 < w) :
    RoundsTo (v / w) (.ofModel (.pack (UnpackedFloat.div Format.binary64 x y))) := by
  cases hy with
  | zero => exact absurd hw (lt_irrefl _)
  | @finite m' e' hm' hc' he' =>
    cases hx with
    | zero =>
      rw [zero_div]
      exact HasValue.zero.pack.roundsTo
    | @finite m e hm hc he => exact (divCore_rounded hm hm').roundsTo

end

namespace RoundsTo

variable {x y : Float} {v w : ℚ}

/-- A number that is below a double is rounded to one that is not above it. -/
theorem exists_le (h : RoundsTo v x) (hr : Representable w) (hlt : w < 2 ^ (1024 : ℤ))
    (hv : v ≤ w) : ∃ r, Nearest v r ∧ Valued x r ∧ r ≤ w := by
  obtain ⟨r, hnear, hx⟩ := h
  have hle := hnear.le_of_le hr hv
  exact ⟨r, hnear, hx.resolve_right fun hx => absurd hlt (hx.2.trans hle).not_gt, hle⟩

theorem valued (h : RoundsTo v x) (hr : Representable v) (hlt : v < 2 ^ (1024 : ℤ)) :
    Valued x v := by
  obtain ⟨r, hnear, hx, -⟩ := h.exists_le hr hlt le_rfl
  rwa [← hnear.eq_of_representable hr]

end RoundsTo

section

variable {x y : Float} {v w : ℚ}

theorem Valued.add (hx : Valued x v) (hy : Valued y w) : RoundsTo (v + w) (x + y) := HasValue.add hx hy

theorem Valued.mul (hx : Valued x v) (hy : Valued y w) : RoundsTo (v * w) (x * y) := HasValue.mul hx hy

theorem Valued.div (hx : Valued x v) (hy : Valued y w) (hw : 0 < w) : RoundsTo (v / w) (x / y) :=
  HasValue.div hx hy hw

end

theorem roundsTo_ofNat (n : ℕ) : RoundsTo n (.ofModel (.ofNat n)) := by
  by_cases hn : n = 0
  · subst hn
    exact HasValue.zero.pack.roundsTo
  · have h := normalize_rounded (e := 0) .positive hn
    rw [zpow_zero, mul_one] at h
    exact h.roundsTo

theorem natCast_lt {n : ℕ} (h : n < 2 ^ 53) : (n : ℚ) < 2 ^ (1024 : ℤ) := by
  calc (n : ℚ) < 2 ^ (53 : ℤ) := by exact_mod_cast h
    _ ≤ 2 ^ (1024 : ℤ) := zpow_le_zpow_right₀ one_le_two (by norm_num)

/-- A whole number below `2 ^ 53` is converted without rounding. -/
theorem valued_toFloat {n : ℕ} (h : n < 2 ^ 53) : Valued n.toUInt64.toFloat n := by
  have hn : n.toUInt64.toNat = n := by
    rw [Nat.toUInt64, UInt64.toNat_ofNat']
    omega
  have hround : RoundsTo n.toUInt64.toNat n.toUInt64.toFloat := roundsTo_ofNat _
  rw [hn] at hround
  exact hround.valued (.natCast h) (natCast_lt h)

theorem exactlyRepresentablePowersOfTen_eq : ∀ i : Fin 23,
    getElem Float.exactlyRepresentablePowersOfTen i.val (i.isLt.trans_le (by decide)) =
      .ofModel (.ofNat (10 ^ i.val)) := by
  decide +kernel

/-- Powers of ten are exact as long as those of five have no more than 53 digits. -/
theorem representable_powerOfTen {e : ℕ} (he : e ≤ 22) : Representable (10 ^ e : ℕ) := by
  have hfive : 5 ^ e < 2 ^ 53 :=
    lt_of_le_of_lt (Nat.pow_le_pow_right (by norm_num) he) (by norm_num)
  refine ⟨5 ^ e, e, hfive, by omega, ?_⟩
  rw [zpow_natCast]
  push_cast
  rw [← mul_pow]
  norm_num

theorem valued_powerOfTen {e : ℕ} (he : e ≤ 22) :
    Valued (getElem Float.exactlyRepresentablePowersOfTen e (he.trans_lt (by decide)))
      (10 ^ e : ℕ) := by
  rw [exactlyRepresentablePowersOfTen_eq ⟨e, Nat.lt_succ_of_le he⟩]
  refine (roundsTo_ofNat _).valued (representable_powerOfTen he) ?_
  calc ((10 ^ e : ℕ) : ℚ) ≤ (10 ^ 22 : ℕ) := by exact_mod_cast Nat.pow_le_pow_right (by norm_num) he
    _ < 2 ^ (1024 : ℤ) := lt_of_lt_of_le (by norm_num : ((10 ^ 22 : ℕ) : ℚ) < 2 ^ (74 : ℤ))
      (zpow_le_zpow_right₀ one_le_two (by norm_num))

/-- A short numeral is rounded once. -/
theorem roundsTo_ofScientific {n e : ℕ} (hn : n < 2 ^ 53) (he : e ≤ 22) :
    RoundsTo (n * 10 ^ e) (Float.ofScientific n false e) ∧
      RoundsTo (n / 10 ^ e) (Float.ofScientific n true e) := by
  have hten := valued_powerOfTen he
  have hpos : (0 : ℚ) < (10 ^ e : ℕ) := by positivity
  have hmul := (valued_toFloat hn).mul hten
  have hdiv := (valued_toFloat hn).div hten hpos
  rw [Nat.cast_pow, Nat.cast_ofNat] at hmul hdiv
  rw [Float.ofScientific, Float.ofScientific, dif_pos ⟨hn, he⟩, dif_pos ⟨hn, he⟩]
  exact ⟨hmul, hdiv⟩

section

variable {n : ℕ}

/-- A long whole number is rounded with 53 digits to spare. -/
theorem ofScientific_whole_eq (hn : 2 ^ 53 ≤ n) : Float.ofScientific n false 0 =
    .ofModel (.pack (roundWithAccuracy Format.binary64 .positive (n <<< 53) (-53) .exact)) := by
  have hmodel : Float.ofScientific n false 0 = .ofModel (.ofScientific n 0) := by
    rw [Float.ofScientific, dif_neg (by omega)]
    rfl
  have hbits : (0 : ℤ) ≤ 2 ^ Format.binary64.exponentBits := by positivity
  have hproduct : UnpackedFloat.ofScientific Format.binary64 n 0 =
      roundWithAccuracy Format.binary64 .positive (n <<< 53 * 10 ^ 0) (-53 + 0) .exact := by
    rw [UnpackedFloat.ofScientific, dif_neg (by omega), if_neg (by omega), if_neg (by omega), if_pos le_rfl]
    rfl
  rw [hmodel, Float.Model.ofScientific, hproduct, pow_zero, mul_one, add_zero]

theorem shiftLeft_value (n : ℕ) : ((n <<< 53 : ℕ) : ℚ) * 2 ^ (-53 : ℤ) = n := by
  rw [Nat.shiftLeft_eq]
  push_cast
  rw [mul_assoc]
  norm_num

theorem shiftLeft_spare (hn : n ≠ 0) :
    (-53 : ℤ) ≤ Format.binary64.targetExponent (totalExponent (n <<< 53) (-53)) := by
  rw [targetExponent_eq, totalExponent, Nat.shiftLeft_eq, log2_mul_two_pow hn]
  omega

end

theorem roundsTo_natCast (n : ℕ) : RoundsTo n (Float.ofScientific n false 0) := by
  by_cases hn : n < 2 ^ 53
  · simpa using (roundsTo_ofScientific hn (Nat.zero_le 22)).1
  · have h := roundWithAccuracy_rounded .positive (holds_exact (n <<< 53)) (shiftLeft_spare (by omega))
    rw [shiftLeft_value] at h
    rw [ofScientific_whole_eq (by omega)]
    exact h.roundsTo

/-- Rounding down gives the largest whole number that is not above. -/
theorem Valued.floor {x : Float} {v : ℚ} (h : Valued x v) : Valued (Double.floor x) ⌊v⌋ := by
  obtain ⟨u, hu⟩ : ∃ u, x.toModel.unpack = u := ⟨_, rfl⟩
  have hx := h
  rw [Valued, hu] at h
  cases h with
  | zero =>
    simp only [Double.floor, hu, Int.floor_zero, Int.cast_zero]
    exact hx
  | @finite m e hm hc he =>
    simp only [Double.floor, hu]
    split
    case isTrue hwhole =>
      obtain ⟨n, rfl⟩ := Int.eq_ofNat_of_zero_le hwhole
      have : (m : ℚ) * 2 ^ (n : ℤ) = (m * 2 ^ n : ℤ) := by
        push_cast
        rw [zpow_natCast]
      rw [this, Int.floor_intCast, ← this]
      exact hx
    case isFalse hplaces =>
      obtain ⟨n, hn⟩ : ∃ n : ℕ, (-e).toNat = n := ⟨_, rfl⟩
      obtain rfl : e = -(n : ℤ) := by omega
      have hfloor : ⌊(m : ℚ) * 2 ^ (-(n : ℤ))⌋ = (m >>> n : ℕ) := by
        have hdiv : (m : ℚ) * 2 ^ (-(n : ℤ)) = m / (2 ^ n : ℕ) := by
          rw [zpow_neg, zpow_natCast, ← div_eq_mul_inv, Nat.cast_pow, Nat.cast_ofNat]
        rw [hdiv, Rat.floor_natCast_div_natCast, Nat.shiftRight_eq_div_pow, Int.natCast_ediv]
      rw [hn, hfloor, Int.cast_natCast]
      exact valued_toFloat (lt_of_le_of_lt (Nat.shiftRight_le m n) hc.lt)

/-- A double is a number without a minus, or infinite. -/
def Extended (x : Float) : Prop := (∃ v, Valued x v) ∨ x.toModel.unpack = .infinity .positive

theorem RoundsTo.extended {x : Float} {v : ℚ} (h : RoundsTo v x) : Extended x := by
  obtain ⟨r, -, hx | ⟨hx, -⟩⟩ := h
  · exact .inl ⟨r, hx⟩
  · exact .inr hx

/-! What infinity does to a number. -/

namespace HasValue

variable {x : UnpackedFloat} {v : ℚ}

theorem infinity_add (h : HasValue x v) :
    UnpackedFloat.add Format.binary64 (.infinity .positive) x = .infinity .positive := by
  cases h <;> rfl

theorem mul_infinity (h : HasValue x v) (hpos : 0 < v) :
    UnpackedFloat.mul Format.binary64 x (.infinity .positive) = .infinity .positive := by
  cases h with
  | zero => exact absurd hpos (lt_irrefl _)
  | finite hc he => rfl

theorem le_infinity (h : HasValue x v) : x.le (.infinity .positive) = true := by cases h <;> rfl

end HasValue

namespace Extended

variable {x y : Float}

theorem of_le (h : UnpackedFloat.le (.zero .positive) x.toModel.unpack = true) : Extended x := by
  by_cases hf : x.isFinite = true
  · exact .inl (Valued.exists_of_le hf h)
  · right
    change ¬x.toModel.unpack.isFinite = true at hf
    cases hu : x.toModel.unpack with
    | infinity s =>
      cases s with
      | positive => rfl
      | negative => rw [hu] at h; cases h
    | notANumber => rw [hu] at h; cases h
    | zero s => rw [hu] at hf; exact absurd rfl hf
    | finite s m e hm => rw [hu] at hf; exact absurd rfl hf

theorem add_valued {w : ℚ} (hx : Extended x) (hy : Valued y w) : Extended (x + y) := by
  rcases hx with ⟨v, hx⟩ | hx
  · exact (hx.add hy).extended
  · right
    change (Float.Model.pack (UnpackedFloat.add Format.binary64 x.toModel.unpack
      y.toModel.unpack)).unpack = _
    rw [hx, HasValue.infinity_add hy]
    exact unpack_pack_infinity _

theorem valued_mul {v : ℚ} (hx : Valued x v) (hpos : 0 < v) (hy : Extended y) : Extended (x * y) := by
  rcases hy with ⟨w, hy⟩ | hy
  · exact (hx.mul hy).extended
  · right
    change (Float.Model.pack (UnpackedFloat.mul Format.binary64 x.toModel.unpack
      y.toModel.unpack)).unpack = _
    rw [hy, HasValue.mul_infinity hx hpos]
    exact unpack_pack_infinity _

theorem floor (hx : Extended x) : Extended (Double.floor x) := by
  rcases hx with ⟨v, hx⟩ | hx
  · exact .inl ⟨_, hx.floor⟩
  · right
    simp only [Double.floor, hx]

theorem le_infinity (hx : Extended x) (hy : y.toModel.unpack = .infinity .positive) : x ≤ y := by
  have h : x.toModel.unpack.le y.toModel.unpack = true := by
    rw [hy]
    rcases hx with ⟨v, hx⟩ | hx
    · exact HasValue.le_infinity hx
    · rw [hx]
      rfl
  exact decide_eq_true h

end Extended

end Oscillator.Double
