import Oscillator.Proofs.Double.Negation

/-! # Products that do not vanish

A product of doubles other than zero can be too small for a double, but not if one factor is at least one:
then it is not smaller than the other factor, which is a double. So the multiples of such a factor
vanish with what they are multiples of.
-/
namespace Oscillator.Double

open Float.Model Float.Model.UnpackedFloat

variable {e : Elementary} {x y : Double e} {w : ℚ}

theorem bne_zero_iff : (x != 0) = true ↔ ∀ s, (Float.toModel x).unpack ≠ .zero s := by
  change (!UnpackedFloat.beq (Float.toModel x).unpack (Float.toModel (0 : Double e)).unpack) = true ↔ _
  rw [unpack_zero]
  rcases (Float.toModel x).unpack with (_ | _) | _ | s | ⟨_ | _, _, _, _⟩ <;>
    simp [UnpackedFloat.beq, UnpackedFloat.compare]

theorem InPlace.unpack_pack_ne_zero {u : UnpackedFloat} (h : InPlace u) (hu : ∀ s, u ≠ .zero s) :
    ∀ s, (Float.Model.pack u).unpack ≠ .zero s := by
  intro s
  cases h with
  | notANumber => nofun
  | infinity s' =>
    rw [unpack_pack_infinity]
    nofun
  | zero s' => exact absurd rfl (hu s')
  | @finite s' m k hm hc =>
    rcases le_or_gt k 971 with hk | hk
    · rw [unpack_pack_finite hc hk]
      nofun
    · rw [unpack_pack_overflow hk]
      nofun

theorem Rounded.ne_zero {v u : ℚ} {s : Sign} {x : UnpackedFloat} (h : Rounded v s x)
    (hu : Representable u) (hpos : 0 < u) (hle : u ≤ v) : ∀ s', x ≠ .zero s' := by
  cases h with
  | zero h => exact absurd (h.ge_of_ge hu hle) hpos.not_ge
  | finite hc h => nofun

/-- A double other than zero is not made zero by a factor that is at least one. -/
theorem mul_bne_zero (hx : (x != 0) = true) (hy : Valued y w) (hw : 1 ≤ w) :
    (x * y != 0) = true := by
  rw [bne_zero_iff] at *
  refine (mul_inPlace _ _).unpack_pack_ne_zero ?_
  change HasValue (Float.toModel y).unpack w at hy
  generalize hv : (Float.toModel y).unpack = v at *
  cases hy with
  | zero => exact absurd hw (by norm_num)
  | @finite m' k' hm' hc' hk' =>
    cases hu : (Float.toModel x).unpack with
    | notANumber => nofun
    | infinity s => nofun
    | zero s => exact absurd hu (hx s)
    | finite s m k hm =>
      obtain ⟨hc, hk⟩ := canonical_of_unpack hu
      have hpos : (0 : ℚ) < m * 2 ^ k := by positivity
      have hrounded := roundWithAccuracy_rounded (s * .positive) (holds_exact (m * m'))
        (hc.exponent_mul_le hm hc' hm')
      refine hrounded.ne_zero hc.representable hpos ?_
      calc (m : ℚ) * 2 ^ k ≤ m * 2 ^ k * (m' * 2 ^ k') := le_mul_of_one_le_right hpos.le hw
        _ = (m * m' : ℕ) * 2 ^ (k + k') := by
          rw [zpow_add₀ two_ne_zero]
          push_cast
          ring

theorem mul_one_bne_zero (hx : (x != 0) = true) : (x * 1 != 0) = true :=
  mul_bne_zero hx (valued_ofNat (by norm_num)) (by norm_num)

theorem exists_euler : ∃ w, Valued (Arithmetic.euler : Double e) w ∧ 1 ≤ w := by
  have h : RoundsTo ((2718281828459045 : ℕ) / 10 ^ 15) (Arithmetic.euler : Double e) :=
    (roundsTo_ofScientific (by norm_num) (by norm_num)).2
  have hfour : (4 : ℕ) < (2 : ℚ) ^ (1024 : ℤ) := natCast_lt (by norm_num)
  obtain ⟨w, hnear, hw, -⟩ := h.exists_le (.natCast (by norm_num)) hfour (by norm_num)
  have hone : Representable (1 : ℕ) := .natCast (by norm_num)
  rw [Nat.cast_one] at hone
  exact ⟨w, hw, hnear.ge_of_ge hone (by norm_num)⟩

theorem mul_euler_bne_zero (hx : (x != 0) = true) : (x * Arithmetic.euler != 0) = true := by
  obtain ⟨w, hw, hle⟩ := exists_euler (e := e)
  exact mul_bne_zero hx hw hle

end Oscillator.Double
