import Oscillator.Proofs.Double.Grid
import Oscillator.Proofs.Expansion.Steps

/-! # Opposites of doubles

A double keeps its sign apart from its size, and rounding looks at the size alone. So the opposite of a
factor makes the opposite of the product, bit for bit, also where the product overflows, vanishes or
is no number.
-/
namespace Oscillator.Double

open Float.Model Float.Model.UnpackedFloat

theorem sign_neg_mul (s s' : Sign) : -s * s' = -(s * s') := by cases s <;> cases s' <;> rfl

theorem roundWithAccuracy_neg (s : Sign) (m : ℕ) (e : ℤ) (accuracy : Accuracy) :
    roundWithAccuracy Format.binary64 (-s) m e accuracy =
      (roundWithAccuracy Format.binary64 s m e accuracy).neg := by
  simp only [roundWithAccuracy]
  split <;> rfl

theorem neg_mul_unpacked (x y : UnpackedFloat) : UnpackedFloat.mul Format.binary64 x.neg y =
    (UnpackedFloat.mul Format.binary64 x y).neg := by
  cases x <;> cases y <;>
    simp [UnpackedFloat.mul, UnpackedFloat.neg, sign_neg_mul, roundWithAccuracy_neg]

/-- What an operation leaves to be packed: the mantissa is in its place, but the exponent may be too
large. -/
inductive InPlace : UnpackedFloat → Prop where
  | notANumber : InPlace .notANumber
  | infinity (s : Sign) : InPlace (.infinity s)
  | zero (s : Sign) : InPlace (.zero s)
  | finite {s : Sign} {m : ℕ} {e : ℤ} {hm : 0 < m} (hc : Canonical m e) : InPlace (.finite s m e hm)

theorem Rounded.inPlace {v : ℚ} {s : Sign} {u : UnpackedFloat} (h : Rounded v s u) : InPlace u := by
  cases h with
  | zero => exact .zero s
  | finite hc => exact .finite hc

theorem InPlace.pack_neg {u : UnpackedFloat} (h : InPlace u) :
    Float.Model.pack (Float.Model.pack u).unpack.neg = Float.Model.pack u.neg := by
  cases h with
  | notANumber => rfl
  | infinity s => rw [unpack_pack_infinity]
  | zero s => rw [unpack_pack_zero]
  | @finite s m e hm hc =>
    rcases le_or_gt e 971 with he | he
    · rw [unpack_pack_finite hc he]
    · rw [unpack_pack_overflow he]
      exact (pack_overflow he).symm

theorem unpack_pack_neg (x : Float.Model) :
    (Float.Model.pack x.unpack.neg).unpack = x.unpack.neg := by
  cases h : x.unpack with
  | notANumber => rfl
  | infinity s => exact unpack_pack_infinity _
  | zero s => exact unpack_pack_zero _
  | finite s m e hm =>
    obtain ⟨hc, he⟩ := canonical_of_unpack h
    exact unpack_pack_finite hc he

theorem mul_inPlace (x y : Float.Model) :
    InPlace (UnpackedFloat.mul Format.binary64 x.unpack y.unpack) := by
  cases hx : x.unpack with
  | notANumber => exact .notANumber
  | infinity s =>
    cases y.unpack with
    | notANumber => exact .notANumber
    | infinity s' => exact .infinity _
    | zero s' => exact .notANumber
    | finite s' m' e' hm' => exact .infinity _
  | zero s =>
    cases y.unpack with
    | notANumber => exact .notANumber
    | infinity s' => exact .notANumber
    | zero s' => exact .zero _
    | finite s' m' e' hm' => exact .zero _
  | finite s m e hm =>
    cases hy : y.unpack with
    | notANumber => exact .notANumber
    | infinity s' => exact .infinity _
    | zero s' => exact .zero _
    | finite s' m' e' hm' =>
      have hle := (canonical_of_unpack hx).1.exponent_mul_le hm (canonical_of_unpack hy).1 hm'
      exact (roundWithAccuracy_rounded (s * s') (holds_exact (m * m')) hle).inPlace

variable {e : Elementary}

theorem neg_mul (x y : Double e) : -x * y = -(x * y) := by
  change Float.ofModel (.pack (UnpackedFloat.mul Format.binary64
      (Float.Model.pack (Float.toModel x).unpack.neg).unpack (Float.toModel y).unpack)) =
    Float.ofModel (.pack (Float.Model.pack (UnpackedFloat.mul Format.binary64
      (Float.toModel x).unpack (Float.toModel y).unpack)).unpack.neg)
  rw [unpack_pack_neg, neg_mul_unpacked, (mul_inPlace _ _).pack_neg]

/-- The opposite of a zero is a zero again, though of the other sign. -/
theorem neg_bne_zero (x : Double e) : (-x != 0) = (x != 0) := by
  change (!UnpackedFloat.beq (Float.Model.pack (Float.toModel x).unpack.neg).unpack
      (Float.toModel (0 : Double e)).unpack) =
    !UnpackedFloat.beq (Float.toModel x).unpack (Float.toModel (0 : Double e)).unpack
  rw [unpack_pack_neg, unpack_zero]
  rcases (Float.toModel x).unpack with (_ | _) | _ | (_ | _) | ⟨_ | _, _, _, _⟩ <;> rfl

end Oscillator.Double
