import Oscillator.Proofs.Decimal.Positional
import Oscillator.Proofs.Decimal.Shortest
import Oscillator.Proofs.Double.Bits
import Oscillator.Proofs.Double.Negation

/-! # Doubles read back

The text of a finite double is a minus, if it has one, and digits with at most one point. What the digits are
read as is the double again, bit for bit.
-/
namespace Oscillator

namespace Decimal

open Float.Model Float.Model.UnpackedFloat Double

/-- A text of digits with at most one point is read as a number. -/
def Digits {α : Type} [Arithmetic α] (t : String) (y : α) : Prop :=
  ∃ d p, fixedPoint? t.toList = some (d, p) ∧ Arithmetic.decimal d p = y

/-- A text is a number without an exponent: digits, after a minus or not. -/
inductive Writes {α : Type} [Arithmetic α] : String → α → Prop where
  | digits {t : String} {y : α} (h : Digits t y) : Writes t y
  | minus {t : String} {y : α} (h : Digits t y) : Writes ("-" ++ t) (-y)

variable {x : Float} {s : Sign} {m d : ℕ} {e k : ℤ}

/-- No double is so small that it needs more places than a reader takes into account. -/
theorem places_le (hm : 0 < m) (he : -1074 ≤ e) {p : ℕ} (h : Covers m e (d / 10 ^ p)) :
    p ≤ 2048 + d.log2 := by
  have hm' : (1 : ℚ) ≤ m := by exact_mod_cast hm
  have hlow : (2 : ℚ) ^ (-1075 : ℤ) ≤ d / 10 ^ p := calc
    (2 : ℚ) ^ (-1075 : ℤ) = 2 ^ (-1074 : ℤ) / 2 := zpow_sub_one₀ two_ne_zero (-1074)
    _ = 1 / 2 * 2 ^ (-1074 : ℤ) := by ring
    _ ≤ (m - 1 / 2) * 2 ^ e :=
      mul_le_mul (by linarith) (zpow_le_zpow_right₀ one_le_two he) (by positivity) (by linarith)
    _ ≤ d / 10 ^ p := (half_le_lowEnd m e).trans h.low_le
  have hlog : (d : ℚ) < 2 ^ (d.log2 + 1) := by exact_mod_cast Nat.lt_log2_self
  have hpow : (2 : ℚ) ^ p < 2 ^ (d.log2 + 1 + 1075) := calc
    (2 : ℚ) ^ p ≤ 10 ^ p := by gcongr; norm_num
    _ ≤ d * 2 ^ 1075 := by
      rw [le_div_iff₀ (by positivity), zpow_neg, inv_mul_le_iff₀ (by positivity), mul_comm] at hlow
      exact_mod_cast hlow
    _ < 2 ^ (d.log2 + 1) * 2 ^ 1075 := by gcongr
    _ = 2 ^ (d.log2 + 1 + 1075) := (pow_add 2 _ _).symm
  have := (pow_lt_pow_iff_right₀ (one_lt_two (α := ℚ))).mp hpow
  omega

/-- Digits are read as the double in whose interval they lie. -/
theorem digits_positional (hm : 0 < m) (hc : Canonical m e) (h : Covers m e (d * 10 ^ k)) :
    Digits (positional d k) (Float.ofModel (.pack (.finite .positive m e hm))) := by
  have hd : 0 < d := by
    have hm' : (1 : ℚ) ≤ m := by exact_mod_cast hm
    have hlow : 0 < (m - 1 / 2 : ℚ) * 2 ^ e := mul_pos (by linarith) (by positivity)
    have hpos := hlow.trans_le ((half_le_lowEnd m e).trans h.low_le)
    exact_mod_cast pos_of_mul_pos_left hpos (by positivity)
  have hread := fixedPoint?_positional d k
  split at hread
  case isTrue hk =>
    obtain ⟨n, rfl⟩ := Int.eq_ofNat_of_zero_le hk
    have hvalue : Covers m e (d * 10 ^ n : ℕ) := by
      rw [zpow_natCast] at h
      exact_mod_cast h
    exact ⟨_, _, hread, ofScientific_whole hm hc (Nat.mul_pos hd (Nat.pow_pos (by norm_num))) hvalue⟩
  case isFalse hk =>
    obtain ⟨n, hn⟩ : ∃ n : ℕ, (-k).toNat = n := ⟨_, rfl⟩
    obtain rfl : k = -(n : ℤ) := by omega
    rw [zpow_neg, zpow_natCast, ← div_eq_mul_inv] at h
    refine ⟨d, _, hread, ?_⟩
    change Float.ofScientific d (decide (-(n : ℤ) < 0)) (-(n : ℤ)).natAbs = _
    rw [decide_eq_true (by omega), Int.natAbs_neg, Int.natAbs_natCast]
    exact ofScientific_places hm hc hd (by omega) (places_le hm hc.le h) h

theorem digits_zero : Digits "0" (Float.ofModel (.pack (.zero .positive))) :=
  ⟨0, 0, by decide, zero_eq (e := .native)⟩

theorem ofFloat_eq (hf : x.isFinite = true) : Decimal.ofFloat x =
    (if x.toBits >>> 63 == 1 then "-" else "") ++
      if x == 0 then "0" else positional (Binary.ofFloat x).shortest.1 (Binary.ofFloat x).shortest.2 := by
  have hspecial : x.isNaN = false ∧ x.isInf = false := by
    change x.toModel.unpack.isNaN = false ∧ x.toModel.unpack.isInf = false
    rcases unpack_of_isFinite hf with ⟨s, hu⟩ | ⟨s, m, e, hm, hu⟩ <;> rw [hu] <;> exact ⟨rfl, rfl⟩
  rw [ofFloat, hspecial.1, hspecial.2]
  rfl

theorem minus_iff (x : Float) : (x.toBits >>> 63 == 1) = decide (signBit x = 1) := by
  have hshift : (x.toBits >>> 63).toNat = signBit x := by
    rw [UInt64.toNat_shiftRight, Nat.shiftRight_eq_div_pow]
    rfl
  rw [← hshift, Bool.eq_iff_iff, beq_iff_eq, decide_eq_true_eq, ← UInt64.toNat_inj]
  rfl

theorem parts_neg (h : parts? x.toModel.unpack = some (s, m, e)) :
    parts? (-x).toModel.unpack = some (-s, m, e) := by
  change parts? (Float.Model.pack x.toModel.unpack.neg).unpack = _
  rw [unpack_pack_neg]
  cases hu : x.toModel.unpack <;> rw [hu] at h <;> cases h <;> rfl

theorem beq_zero_iff_of_parts (h : parts? x.toModel.unpack = some (s, m, e)) :
    (x == 0) = true ↔ m = 0 := by
  change UnpackedFloat.beq x.toModel.unpack (.zero .positive) = true ↔ _
  cases hu : x.toModel.unpack with
  | infinity s => rw [hu] at h; cases h
  | notANumber => rw [hu] at h; cases h
  | zero s => rw [hu] at h; cases h; exact iff_of_true rfl rfl
  | finite s' m' e' hm =>
    rw [hu] at h
    cases h
    refine iff_of_false ?_ hm.ne'
    cases s <;> nofun

/-- Without its sign a finite double is written in digits. -/
theorem digits_of_parts (h : parts? x.toModel.unpack = some (s, m, e)) :
    ∃ y, Digits (if x == 0 then "0"
        else positional (Binary.ofFloat x).shortest.1 (Binary.ofFloat x).shortest.2) y ∧
      parts? (Float.toModel y).unpack = some (.positive, m, e) := by
  obtain ⟨hmagnitude, -⟩ := ofFloat_of_parts h
  obtain ⟨hc, he⟩ := canonical_of_parts h
  split
  case isTrue hx =>
    obtain rfl := (beq_zero_iff_of_parts h).mp hx
    obtain rfl := hc.full.resolve_left (by norm_num)
    exact ⟨_, digits_zero, congrArg parts? (unpack_pack_zero _)⟩
  case isFalse hx =>
    have hm : 0 < m := Nat.pos_of_ne_zero fun hm => hx ((beq_zero_iff_of_parts h).mpr hm)
    rw [hmagnitude]
    exact ⟨_, digits_positional hm hc (Binary.shortest_covers (x := ⟨m, e⟩) hm hc.lt),
      congrArg parts? (unpack_pack_finite hc he)⟩

/-- The text of a finite double is read back as the double. -/
theorem ofFloat_writes (hf : x.isFinite = true) : Writes (Decimal.ofFloat x) x := by
  obtain ⟨s, m, e, hparts⟩ := exists_parts hf
  obtain ⟨-, hsign⟩ := ofFloat_of_parts hparts
  obtain ⟨y, hy, hunsigned⟩ := digits_of_parts hparts
  rw [ofFloat_eq hf, minus_iff, hsign]
  cases s with
  | positive =>
    obtain rfl : x = y := eq_of_parts hparts hunsigned
    exact .digits hy
  | negative =>
    obtain rfl : x = -y := eq_of_parts hparts (parts_neg hunsigned)
    exact .minus hy

end Decimal

end Oscillator
