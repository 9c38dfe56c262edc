import Oscillator.Proofs.Double.Operations
import Oscillator.Proofs.Parameters
import Oscillator.Sampling.Grid

/-! # Grids of doubles

A grid over a finite range has at least its first point, which is zero. Only a widened step is in
doubt: it could vanish if the bound is tiny. But then the bound is so few steps away that there was
no need to widen them.
-/
namespace Oscillator

def Double (_ : Elementary) : Type := Float

namespace Double

open Arithmetic Float.Model

variable {e : Elementary}

instance : Arithmetic (Double e) := Double.arithmetic e

variable {x y : Double e} {v w : ℚ}

theorem lt_iff (hx : Valued x v) (hy : Valued y w) : x < y ↔ v < w := Valued.lt_iff hx hy

theorem le_iff (hx : Valued x v) (hy : Valued y w) : x ≤ y ↔ v ≤ w := Valued.le_iff hx hy

theorem roundsTo_add (hx : Valued x v) (hy : Valued y w) : RoundsTo (v + w) (x + y) := hx.add hy

theorem roundsTo_div (hx : Valued x v) (hy : Valued y w) (h : 0 < w) : RoundsTo (v / w) (x / y) :=
  hx.div hy h

theorem roundsTo_cast (n : ℕ) : RoundsTo n (n : Double e) := roundsTo_natCast n

theorem valued_ofNat {n : ℕ} (h : n < 2 ^ 53) : Valued (OfNat.ofNat n : Double e) n :=
  (roundsTo_natCast n).valued (.natCast h) (natCast_lt h)

theorem zero_eq : (0 : Double e) = Float.ofModel (.pack (.zero .positive)) := by
  change Float.ofScientific 0 false 0 = _
  decide +kernel

theorem unpack_zero : (Float.toModel (0 : Double e)).unpack = .zero .positive := by
  rw [zero_eq]
  exact unpack_pack_zero _

theorem valued_zero : Valued (0 : Double e) 0 := by
  change HasValue (Float.toModel (0 : Double e)).unpack 0
  rw [unpack_zero]
  exact .zero

theorem zero_mul (hx : Valued x v) (hpos : 0 < v) : 0 * x = 0 := by
  have hmul {u : UnpackedFloat} (hu : HasValue u v) :
      UnpackedFloat.mul Format.binary64 (.zero .positive) u = .zero .positive := by
    cases hu with
    | zero => exact absurd hpos (lt_irrefl _)
    | finite hc he => rfl
  change Float.ofModel (.pack (UnpackedFloat.mul Format.binary64 (Float.toModel (0 : Double e)).unpack
    (Float.toModel x).unpack)) = _
  rw [unpack_zero, hmul hx, zero_eq]

/-- The numbers that are not negative are those with a value. -/
theorem isNonnegative_iff : IsNonnegative x ↔ ∃ v, Valued x v := by
  constructor
  · rintro ⟨hf, hle⟩
    refine Valued.exists_of_le hf ?_
    rw [← unpack_zero (e := e)]
    exact of_decide_eq_true hle
  · rintro ⟨v, hv⟩
    exact ⟨hv.isFinite, (le_iff valued_zero hv).mpr hv.nonneg⟩

theorem isPositive_iff : IsPositive x ↔ ∃ v, Valued x v ∧ 0 < v := by
  constructor
  · rintro ⟨hf, hlt⟩
    have hlt' : (UnpackedFloat.zero .positive).lt (Float.toModel x).unpack = true := by
      rw [← unpack_zero (e := e)]
      exact of_decide_eq_true hlt
    have hle : (UnpackedFloat.zero .positive).le (Float.toModel x).unpack = true := by
      rw [UnpackedFloat.lt, beq_iff_eq] at hlt'
      rw [UnpackedFloat.le, hlt']
      rfl
    obtain ⟨v, hv⟩ := Valued.exists_of_le hf hle
    exact ⟨v, hv, (lt_iff valued_zero hv).mp hlt⟩
  · rintro ⟨v, hv, hpos⟩
    exact ⟨hv.isFinite, (lt_iff valued_zero hv).mpr hpos⟩

theorem one_isPositive : IsPositive (1 : Double e) :=
  isPositive_iff.mpr ⟨(1 : ℕ), valued_ofNat (by norm_num), by norm_num⟩

theorem nonneg_of_extended (hx : Extended x) : 0 ≤ x := by
  rcases hx with ⟨v, hv⟩ | hx
  · exact (le_iff valued_zero hv).mpr hv.nonneg
  · exact Extended.le_infinity (.inl ⟨0, valued_zero (e := e)⟩) hx

/-- Doubling keeps the sign, also of what is infinite. -/
theorem two_mul_nonneg (hx : 0 ≤ x) : 0 ≤ 2 * x := by
  have hle : (UnpackedFloat.zero .positive).le (Float.toModel x).unpack = true := by
    rw [← unpack_zero (e := e)]
    exact of_decide_eq_true hx
  have htwo : Valued (2 : Double e) (2 : ℕ) := valued_ofNat (by norm_num)
  exact nonneg_of_extended (Extended.valued_mul htwo (by norm_num) (Extended.of_le hle))

/-- The allowance for rounding is a double between zero and a quarter. -/
theorem exists_allowance : ∃ c, Valued (1e-9 : Double e) c ∧ c ≤ 1 / 4 := by
  have h : RoundsTo ((1 : ℕ) / 10 ^ 9) (1e-9 : Double e) :=
    (roundsTo_ofScientific (by norm_num) (by norm_num)).2
  have hquarter : Representable (1 / 4) := ⟨1, -2, by norm_num, by norm_num, by norm_num⟩
  obtain ⟨c, -, hc, hle⟩ := h.exists_le hquarter
    (lt_of_lt_of_le (by norm_num) (one_le_zpow₀ one_le_two (by norm_num))) (by norm_num)
  exact ⟨c, hc, hle⟩

/-- With at most half as many steps as there may be points, there is no need to widen the steps. -/
theorem le_maxPoints {q : Double e} {ρ r w : ℚ} {m : ℕ} (hq : Valued q ρ) (hρ : ρ ≤ r / 2)
    (hm : Valued (m : Double e) w) (hw : r / 2 + 3 / 2 ≤ w) :
    floor (q + (1e-9 : Double e)) + 1 ≤ (m : Double e) := by
  obtain ⟨c, hc, hquarter⟩ := exists_allowance (e := e)
  have hlt := hm.lt
  obtain ⟨ρ', hnear, hq'⟩ := roundsTo_add hq hc
  -- The sum is no farther from its rounding than from `q` itself.
  have hρ' : ρ' ≤ ρ + 2 * c := by
    have h := hnear.near ρ hq.representable
    rw [sub_add_cancel_left, abs_neg, abs_of_nonneg hc.nonneg] at h
    linarith [le_abs_self (ρ' - (ρ + c))]
  have hq' : Valued (q + (1e-9 : Double e)) ρ' := hq'.resolve_right fun h => by linarith [h.2]
  have hfloor : (⌊ρ'⌋ : ℚ) ≤ ρ' := Int.floor_le ρ'
  have hone : Valued (1 : Double e) (1 : ℕ) := valued_ofNat (by norm_num)
  obtain ⟨κ, -, hκ, hle⟩ := (roundsTo_add hq'.floor hone).exists_le hm.representable hlt
    (by push_cast; linarith)
  exact (le_iff hκ hm).mpr hle

/-- Counts from two on are rounded in order, and so far apart from half of each other. -/
theorem exists_counts {m : ℕ} {w : ℚ} (hm : 2 ≤ m) (hw : Nearest m w) (hlt : w < 2 ^ (1024 : ℤ)) :
    ∃ r, Valued ((m - 1 : ℕ) : Double e) r ∧ 1 ≤ r ∧ r / 2 + 3 / 2 ≤ w := by
  obtain ⟨r, hr, hvalued⟩ := roundsTo_cast (e := e) (m - 1)
  have hcast : ((m - 1 : ℕ) : ℚ) = m - 1 := by push_cast [Nat.cast_sub (by omega : 1 ≤ m)]; rfl
  have hm' : (2 : ℚ) ≤ m := by exact_mod_cast hm
  have hle : r ≤ w := hr.le_of_lt hw (by rw [hcast]; linarith)
  have hone : 1 ≤ r := hr.ge_of_ge (.natCast (by norm_num : 1 < 2 ^ 53)) (by rw [hcast]; linarith)
  have htwo : 2 ≤ w := hw.ge_of_ge (.natCast (by norm_num : 2 < 2 ^ 53)) hm'
  refine ⟨r, hvalued.resolve_right fun h => by linarith [h.2], hone, ?_⟩
  rcases hm.eq_or_lt with rfl | hm
  · have : r ≤ 1 := hr.le_of_le (.natCast (by norm_num : 1 < 2 ^ 53)) (by norm_num)
    linarith
  · have : 3 ≤ w := hw.ge_of_ge (.natCast (by norm_num : 3 < 2 ^ 53)) (by exact_mod_cast hm)
    linarith

/-- A step that is widened does not vanish. -/
theorem widened_isPositive {bound step : Double e} {m : ℕ} (hb : IsNonnegative bound)
    (hs : IsPositive step) (hm : 2 ≤ m)
    (hn : ¬floor (bound / step + (1e-9 : Double e)) + 1 ≤ (m : Double e)) :
    IsPositive (bound / ((m - 1 : ℕ) : Double e)) := by
  obtain ⟨β, hβ⟩ := isNonnegative_iff.mp hb
  obtain ⟨σ, hσ, hpos⟩ := isPositive_iff.mp hs
  have hone : Valued (1 : Double e) (1 : ℕ) := valued_ofNat (by norm_num)
  obtain ⟨w, hw, hm' | ⟨hm', -⟩⟩ := roundsTo_cast (e := e) m
  · obtain ⟨r, hr, hr1, hrw⟩ := exists_counts (e := e) hm hw hm'.lt
    have hr0 : 0 < r := by linarith
    have hβ0 := hβ.nonneg
    obtain ⟨τ, hτ, hvalued, -⟩ := (roundsTo_div hβ hr hr0).exists_le hβ.representable hβ.lt
      (div_le_self hβ0 hr1)
    refine isPositive_iff.mpr ⟨τ, hvalued, lt_of_le_of_ne hvalued.nonneg fun hzero => hn ?_⟩
    -- A bound that vanishes when it is divided is at most half of so many steps away.
    have hhalf : β / σ ≤ r / 2 := by
      rw [← hzero] at hτ
      have htiny := hτ.le_of_eq_zero.trans (hσ.representable.tiny_le hpos)
      rw [div_le_iff₀ hpos]
      rw [mul_div_assoc', div_le_iff₀ hr0] at htiny
      linarith
    have hrlt : r / 2 < 2 ^ (1024 : ℤ) := (half_le_self hr0.le).trans_lt hr.lt
    obtain ⟨ρ, -, hρ, hle⟩ := (roundsTo_div hβ hσ hpos).exists_le (hr.representable.half hr1) hrlt hhalf
    exact le_maxPoints hρ hle hm' hrw
  · obtain ⟨c, hc, -⟩ := exists_allowance (e := e)
    exact absurd (((((roundsTo_div hβ hσ hpos).extended.add_valued hc).floor).add_valued
      hone).le_infinity hm') hn

end Double

namespace TimeGrid

open Arithmetic

section

variable {α : Type} [Arithmetic α] {bound step : α}

theorem intervals?_eq_some (hb : IsNonnegative bound) (hs : IsPositive step) :
    intervals? bound step = some (floor (bound / step + 1e-9)) := by
  simp [intervals?, hb.1, hb.2, hs.1, hs.2]

theorem ofRange_eq (hb : IsNonnegative bound) (hs : IsPositive step) :
    ∃ count, 0 < count ∧ ofRange bound step = ⟨bound, step, count⟩ := by
  refine ⟨_, ?_, rfl⟩
  simp [intervals?_eq_some hb hs, maxCount]

end

variable {e : Elementary} {bound step : Double e}

/-- However few points are allowed, a grid over a finite range has one, and its steps are positive. -/
theorem capped_eq (hb : IsNonnegative bound) (hs : IsPositive step) (maxPoints : ℕ) :
    ∃ (width : Double e) (count : ℕ), IsPositive width ∧ 0 < count ∧
      capped bound step maxPoints = ⟨bound, width, count⟩ := by
  have hrange {width : Double e} (h : IsPositive width) : ∃ (width' : Double e) (count : ℕ),
      IsPositive width' ∧ 0 < count ∧ ofRange bound width = ⟨bound, width', count⟩ := by
    obtain ⟨count, hcount, heq⟩ := ofRange_eq hb h
    exact ⟨width, count, h, hcount, heq⟩
  simp only [capped, intervals?_eq_some hb hs]
  split
  case isTrue => exact hrange hs
  case isFalse hn =>
    rw [not_or] at hn
    split
    case isTrue => exact ⟨step, 1, hs, one_pos, rfl⟩
    case isFalse hone => exact hrange (Double.widened_isPositive hb hs (by omega) hn.2)

theorem time_zero {width : Double e} (hb : IsNonnegative bound) (hw : IsPositive width) (count : ℕ) :
    time ⟨bound, width, count⟩ 0 = 0 := by
  obtain ⟨v, hv, hpos⟩ := Double.isPositive_iff.mp hw
  obtain ⟨w, hb⟩ := Double.isNonnegative_iff.mp hb
  have hdefined : isUndefined (0 : Double e) = false := by
    change (!((Float.ofScientific 0 false 0) == (Float.ofScientific 0 false 0))) = false
    decide +kernel
  have hlt : ¬bound < 0 := by
    rw [Double.lt_iff hb Double.valued_zero]
    exact hb.nonneg.not_gt
  change smaller ((0 : Double e) * width) bound = 0
  rw [Double.zero_mul hv hpos, smaller, hdefined, if_neg (by simpa using hlt)]

end TimeGrid

end Oscillator
