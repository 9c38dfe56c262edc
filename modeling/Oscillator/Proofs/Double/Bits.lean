import Oscillator.Decimal.Shortest
import Oscillator.Proofs.Double.Packing

/-! # Bits of doubles

The 64 bits of a double are its sign, 11 bits of the exponent and 52 of the mantissa. Both the magnitude that
is printed and the double that is computed with are taken from them.
-/
namespace Oscillator.Double

open Float.Model Float.Model.UnpackedFloat Decimal

theorem toNat_unpackMantissa (b : BitVec 64) :
    (@unpackMantissa Format.binary64 b).toNat = b.toNat % 2 ^ 52 := by
  change (b.extractLsb 51 0).toNat = _
  simp [BitVec.extractLsb]

theorem toNat_unpackExponent (b : BitVec 64) :
    (@unpackExponent Format.binary64 b).toNat = b.toNat / 2 ^ 52 % 2048 := by
  change (b.extractLsb 62 52).toNat = _
  simp [BitVec.extractLsb, Nat.shiftRight_eq_div_pow]

theorem toNat_unpackSign (b : BitVec 64) : (@unpackSign Format.binary64 b).toNat = b.toNat / 2 ^ 63 := by
  have hlt := b.isLt
  change (b.extractLsb 63 63).toNat = _
  simp only [BitVec.extractLsb, BitVec.extractLsb'_toNat, Nat.shiftRight_eq_div_pow]
  omega

theorem toBitVec_ofBitVec (b : BitVec 1) : (Sign.ofBitVec b).toBitVec = b := by decide +revert

variable {x y : Float} {s : Sign} {m : ℕ} {e : ℤ}

/-- The leading bit, which is set for a minus. -/
def signBit (x : Float) : ℕ := x.toBits.toNat / 2 ^ 63

/-- The magnitude that is printed is what the double is unpacked into. -/
theorem ofFloat_of_parts (h : parts? x.toModel.unpack = some (s, m, e)) :
    Binary.ofFloat x = ⟨m, e⟩ ∧ signBit x = s.toBitVec.toNat := by
  obtain ⟨hs, -, hfields⟩ := parts_of_bits h
  refine ⟨?_, ?_⟩
  · rw [toNat_unpackExponent, toNat_unpackMantissa] at hfields
    simp only [Binary.ofFloat]
    change (if x.toModel.toBits.toBitVec.toNat / 2 ^ 52 % 2048 = 0 then _ else _) = _
    split at hfields
    case isTrue hzero =>
      obtain ⟨rfl, rfl⟩ := hfields
      rw [if_pos hzero]
      rfl
    case isFalse hzero =>
      obtain ⟨rfl, rfl⟩ := hfields
      rw [if_neg hzero]
      rfl
  · rw [← hs, toBitVec_ofBitVec, toNat_unpackSign]
    rfl

/-- A double is its sign, its mantissa and its exponent. -/
theorem eq_of_ofFloat (h : Binary.ofFloat x = Binary.ofFloat y) (hs : signBit x = signBit y) : x = y := by
  have hbits : x.toBits.toNat = y.toBits.toNat := by
    have hx := x.toBits.toNat_lt
    have hy := y.toBits.toNat_lt
    simp only [Binary.ofFloat, Binary.leadingBit, signBit] at h hs
    generalize x.toBits.toNat = a at *
    generalize y.toBits.toNat = b at *
    by_cases ha : a / 0x10000000000000 % 2048 = 0 <;> by_cases hb : b / 0x10000000000000 % 2048 = 0 <;>
      simp only [ha, hb, if_true, if_false, Binary.mk.injEq] at h <;> omega
  cases x with | ofModel a => cases y with | ofModel b =>
  obtain ⟨a, ha⟩ := a
  obtain ⟨b, hb⟩ := b
  obtain rfl : a = b := UInt64.toNat_inj.mp hbits
  rfl

theorem eq_of_parts (h : parts? x.toModel.unpack = some (s, m, e))
    (h' : parts? y.toModel.unpack = some (s, m, e)) : x = y := by
  obtain ⟨hx, hsx⟩ := ofFloat_of_parts h
  obtain ⟨hy, hsy⟩ := ofFloat_of_parts h'
  exact eq_of_ofFloat (hx.trans hy.symm) (hsx.trans hsy.symm)

theorem exists_parts (hf : x.isFinite = true) : ∃ s m e, parts? x.toModel.unpack = some (s, m, e) := by
  rcases unpack_of_isFinite hf with ⟨s, hu⟩ | ⟨s, m, e, hm, hu⟩
  · exact ⟨s, 0, -1074, congrArg parts? hu⟩
  · exact ⟨s, m, e, congrArg parts? hu⟩

theorem eq_of_unpack (hf : x.isFinite = true) (h : x.toModel.unpack = y.toModel.unpack) : x = y := by
  obtain ⟨s, m, e, hparts⟩ := exists_parts hf
  exact eq_of_parts hparts (h ▸ hparts)

/-- Nothing is lost when a finite double is unpacked and packed again. -/
theorem pack_unpack (hf : x.isFinite = true) : .ofModel (.pack x.toModel.unpack) = x := by
  refine (eq_of_unpack hf ?_).symm
  change _ = (Float.Model.pack x.toModel.unpack).unpack
  rcases unpack_of_isFinite hf with ⟨s, hu⟩ | ⟨s, m, e, hm, hu⟩
  · rw [hu, unpack_pack_zero]
  · obtain ⟨hc, he⟩ := canonical_of_unpack hu
    rw [hu, unpack_pack_finite hc he]

end Oscillator.Double
