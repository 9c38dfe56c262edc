import Oscillator.Proofs.Double.Rounding

/-! # Packing

A double keeps a canonical mantissa without its leading digit, and so nothing is lost on the way into
64 bits and back but an exponent that is too large.
-/
namespace Oscillator.Double

open Float.Model Float.Model.UnpackedFloat

theorem ofBitVec_toBitVec (s : Sign) : Sign.ofBitVec s.toBitVec = s := by cases s <;> rfl

theorem unpackSign_packComponents (s : Sign) (exponent : BitVec 11) (mantissa : BitVec 52) :
    unpackSign (packComponents Format.binary64 s exponent mantissa) = s.toBitVec := by
  apply BitVec.eq_of_getLsbD_eq
  intro i hi
  obtain rfl : i = 0 := by omega
  simp only [unpackSign, packComponents, BitVec.getLsbD_cast, BitVec.extractLsb,
    BitVec.getLsbD_extractLsb']
  rw [BitVec.getLsbD_append, BitVec.getLsbD_append]
  simp

theorem toNat_leadingDigit {m : ℕ} (hfull : 2 ^ 52 ≤ m) (hlt : m < 2 ^ 53) :
    (1#1 ++ BitVec.ofNat 52 m).toNat = m := by
  rw [BitVec.toNat_append, BitVec.toNat_ofNat, BitVec.toNat_ofNat,
    ← Nat.shiftLeft_add_eq_or_of_lt (Nat.mod_lt _ (by norm_num)), Nat.shiftLeft_eq]
  omega

section

variable {s : Sign} {m : ℕ} {e : ℤ} {hm : 0 < m}

theorem pack_finite : UnpackedFloat.pack Format.binary64 (.finite s m e hm) =
    if 2048 ≤ (e + 1075).toNat + 1 then packedInfinity Format.binary64 s
    else if m.log2 + 1 = 53 then
      packComponents Format.binary64 s (BitVec.ofNat 11 (e + 1075).toNat) (BitVec.ofNat 52 m)
    else packComponents Format.binary64 s 0#11 (BitVec.ofNat 52 m) := by
  have h : (e + Format.binary64.exponentBias + Format.binary64.mantissaBitsWithoutImplicit).toNat =
      (e + 1075).toNat := by
    change (e + 1023 + 52).toNat = _
    omega
  rw [UnpackedFloat.pack, h]
  rfl

theorem unpack_pack_normal (hfull : 2 ^ 52 ≤ m) (hlt : m < 2 ^ 53) (he : -1074 ≤ e) (he' : e ≤ 971) :
    UnpackedFloat.unpack Format.binary64 (UnpackedFloat.pack Format.binary64 (.finite s m e hm)) =
      .finite s m e hm := by
  have hl : m.log2 = 52 := (Nat.log2_eq_iff hm.ne').mpr ⟨hfull, hlt⟩
  obtain ⟨b, hb⟩ : ∃ b : ℕ, (e + 1075).toNat = b := ⟨_, rfl⟩
  have hpack : UnpackedFloat.pack Format.binary64 (.finite s m e hm) =
      packComponents Format.binary64 s (BitVec.ofNat 11 b) (BitVec.ofNat 52 m) := by
    rw [pack_finite, hl, hb, if_neg (by omega), if_pos rfl]
  have hinf : BitVec.ofNat 11 b ≠ -1#11 := by
    intro h
    have := congrArg BitVec.toNat h
    simp only [BitVec.toNat_ofNat, BitVec.reduceNeg] at this
    omega
  have hzero : BitVec.ofNat 11 b ≠ 0#11 := by
    intro h
    have := congrArg BitVec.toNat h
    simp only [BitVec.toNat_ofNat] at this
    omega
  rw [hpack]
  simp only [UnpackedFloat.unpack, unpackExponent_packComponents, unpackMantissa_packComponents,
    unpackSign_packComponents, ofBitVec_toBitVec]
  rw [if_neg hinf, if_neg hzero]
  simp only [finite.injEq, true_and, toNat_leadingDigit hfull hlt, BitVec.toNat_ofNat]
  change ((b % 2048 : ℕ) : ℤ) - (1023 + 52) = e
  omega

theorem unpack_pack_subnormal (hlt : m < 2 ^ 52) :
    UnpackedFloat.unpack Format.binary64 (UnpackedFloat.pack Format.binary64 (.finite s m (-1074) hm)) =
      .finite s m (-1074) hm := by
  have hl : m.log2 < 52 := (Nat.log2_lt hm.ne').mpr hlt
  have hpack : UnpackedFloat.pack Format.binary64 (.finite s m (-1074) hm) =
      packComponents Format.binary64 s 0#11 (BitVec.ofNat 52 m) := by
    rw [pack_finite, if_neg (by norm_num), if_neg (by omega)]
  have hmod : (BitVec.ofNat 52 m).toNat = m := by
    rw [BitVec.toNat_ofNat]
    omega
  have hne : BitVec.ofNat 52 m ≠ 0#52 := by
    intro h
    have := congrArg BitVec.toNat h
    rw [hmod] at this
    exact hm.ne' this
  rw [hpack]
  simp only [UnpackedFloat.unpack, unpackExponent_packComponents, unpackMantissa_packComponents,
    unpackSign_packComponents, ofBitVec_toBitVec]
  rw [if_neg (by decide), if_pos trivial, dif_neg hne]
  simp only [finite.injEq, true_and, hmod]
  rfl

/-- A canonical double that is not too large is packed without loss. -/
theorem unpack_pack_finite (h : Canonical m e) (he : e ≤ 971) :
    (Float.Model.pack (.finite s m e hm)).unpack = .finite s m e hm := by
  by_cases hfull : 2 ^ 52 ≤ m
  · exact unpack_pack_normal hfull h.lt h.le he
  · obtain rfl := h.full.resolve_left hfull
    exact unpack_pack_subnormal (by omega)

end

theorem unpack_pack_zero (s : Sign) : (Float.Model.pack (.zero s)).unpack = .zero s := by
  cases s <;> rfl

theorem unpack_pack_infinity (s : Sign) : (Float.Model.pack (.infinity s)).unpack = .infinity s := by
  cases s <;> rfl

/-- One that is too large becomes infinite. -/
theorem pack_overflow {s : Sign} {m : ℕ} {e : ℤ} {hm : 0 < m} (he : 971 < e) :
    Float.Model.pack (.finite s m e hm) = Float.Model.pack (.infinity s) := by
  have hbits : UnpackedFloat.pack Format.binary64 (.finite s m e hm) =
      UnpackedFloat.pack Format.binary64 (.infinity s) := by
    rw [pack_finite, if_pos (by omega), UnpackedFloat.pack]
  simp only [Float.Model.pack, hbits]

theorem unpack_pack_overflow {s : Sign} {m : ℕ} {e : ℤ} {hm : 0 < m} (he : 971 < e) :
    (Float.Model.pack (.finite s m e hm)).unpack = .infinity s := by
  rw [pack_overflow he, unpack_pack_infinity]

section

variable {x : Float.Model} {s : Sign} {m : ℕ} {e : ℤ}

theorem unpack_of_isFinite (hf : x.unpack.isFinite = true) :
    (∃ s, x.unpack = .zero s) ∨ ∃ s m e hm, x.unpack = .finite s m e hm := by
  cases hu : x.unpack with
  | infinity s => rw [hu] at hf; cases hf
  | notANumber => rw [hu] at hf; cases hf
  | zero s => exact .inl ⟨s, rfl⟩
  | finite s m e hm => exact .inr ⟨s, m, e, hm, rfl⟩

/-- Sign, mantissa and exponent of a finite double. A zero has the smallest exponent. -/
def parts? : UnpackedFloat → Option (Sign × ℕ × ℤ)
  | .zero s => some (s, 0, -1074)
  | .finite s m e _ => some (s, m, e)
  | .infinity _ => none
  | .notANumber => none

/-- What an unpacked double has from its bits. The largest exponent is kept for infinities, the smallest one
for zeros and numbers without a leading digit. -/
theorem parts_of_bits (h : parts? x.unpack = some (s, m, e)) :
    Sign.ofBitVec (@unpackSign Format.binary64 x.toBits.toBitVec) = s ∧
      (@unpackExponent Format.binary64 x.toBits.toBitVec).toNat < 2047 ∧
      if (@unpackExponent Format.binary64 x.toBits.toBitVec).toNat = 0 then
        m = (@unpackMantissa Format.binary64 x.toBits.toBitVec).toNat ∧ e = -1074
      else
        m = 2 ^ 52 + (@unpackMantissa Format.binary64 x.toBits.toBitVec).toNat ∧
          e = (@unpackExponent Format.binary64 x.toBits.toBitVec).toNat - 1075 := by
  rw [Float.Model.unpack, UnpackedFloat.unpack] at h
  set mantissa : BitVec 52 := @unpackMantissa Format.binary64 x.toBits.toBitVec
  set exponent : BitVec 11 := @unpackExponent Format.binary64 x.toBits.toBitVec
  have he11 := exponent.isLt
  split at h
  · split at h <;> cases h
  case isFalse hinf =>
    have hinf' : exponent.toNat ≠ 2047 := fun h => hinf (BitVec.eq_of_toNat_eq h)
    split at h
    case isTrue hzero =>
      have hexp : exponent.toNat = 0 := congrArg BitVec.toNat hzero
      rw [if_pos hexp]
      split at h
      case isTrue hmantissa =>
        cases h
        exact ⟨rfl, by omega, congrArg BitVec.toNat hmantissa.symm, rfl⟩
      case isFalse =>
        simp only [parts?, Option.some.injEq, Prod.mk.injEq] at h
        obtain ⟨hs, hm, he⟩ := h
        rw [hexp] at he
        exact ⟨hs, by omega, hm.symm, he.symm⟩
    case isFalse hzero =>
      have hzero' : exponent.toNat ≠ 0 := fun h => hzero (BitVec.eq_of_toNat_eq h)
      simp only [parts?, Option.some.injEq, Prod.mk.injEq] at h
      obtain ⟨hs, rfl, rfl⟩ := h
      have hm : (1#1 ++ mantissa).toNat = 2 ^ 52 + mantissa.toNat := by
        rw [BitVec.toNat_append, ← Nat.shiftLeft_add_eq_or_of_lt mantissa.isLt]
        rfl
      rw [if_neg hzero']
      exact ⟨hs, by omega, hm, rfl⟩

theorem canonical_of_parts (h : parts? x.unpack = some (s, m, e)) : Canonical m e ∧ e ≤ 971 := by
  obtain ⟨-, hlt, hfields⟩ := parts_of_bits h
  have hm52 := (@unpackMantissa Format.binary64 x.toBits.toBitVec).isLt
  change _ < 2 ^ 52 at hm52
  split at hfields
  · obtain ⟨rfl, rfl⟩ := hfields
    exact ⟨⟨by omega, by omega, .inr rfl⟩, by omega⟩
  · obtain ⟨rfl, rfl⟩ := hfields
    exact ⟨⟨by omega, by omega, .inl (by omega)⟩, by omega⟩

theorem canonical_of_unpack {hm : 0 < m} (h : x.unpack = .finite s m e hm) : Canonical m e ∧ e ≤ 971 :=
  canonical_of_parts (congrArg parts? h)

end

end Oscillator.Double
