import Oscillator.Decimal.Shortest
import Oscillator.Proofs.Decimal.Digits
import Oscillator.Proofs.Double.Interval

/-! # Shortest decimals round back

A decimal is only taken if it lies in the rounding interval of the double that it is made for. With 17 digits
the decimals are so close that one of the two around the double does, and so one is always found.
-/
namespace Oscillator

namespace Double

variable {m : ℕ} {e : ℤ} {v a b d : ℚ}

theorem Covers.of_lt (hlow : lowEnd m e < v) (hhigh : v < highEnd m e) : Covers m e v :=
  ⟨hlow.le, hhigh.le, fun _ => ⟨hlow, hhigh⟩⟩

theorem lowEnd_lt (m : ℕ) (e : ℤ) : lowEnd m e < m * 2 ^ e := by
  rw [lowEnd]
  gcongr
  split <;> norm_num

/-- Of two numbers around a double that are no farther from each other than 17 digits allow, one lies in its
rounding interval. -/
theorem covers_of_around (hm : m < 2 ^ 53) (ha : a ≤ m * 2 ^ e) (hb : (m : ℚ) * 2 ^ e < b) (hab : b = a + d)
    (hd : d * 10 ^ 16 ≤ m * 2 ^ e) : Covers m e a ∨ Covers m e b := by
  have hpos : (0 : ℚ) < 2 ^ e := by positivity
  have hlow := lowEnd_lt m e
  have hhigh : (m : ℚ) * 2 ^ e < highEnd m e := by
    rw [highEnd]
    gcongr
    linarith
  by_cases hnarrow : m = 2 ^ 52 ∧ -1074 < e
  · -- Upwards the next double is far enough away.
    have hm' : (m : ℚ) = 2 ^ 52 := by exact_mod_cast hnarrow.1
    refine .inr (.of_lt (hlow.trans hb) ?_)
    rw [highEnd, hab]
    rw [hm'] at ha hd ⊢
    linarith
  · by_cases hin : lowEnd m e < a
    · exact .inl (.of_lt hin (ha.trans_lt hhigh))
    · refine .inr (.of_lt (hlow.trans hb) ?_)
      have hm' : (m : ℚ) < 2 ^ 53 := by exact_mod_cast hm
      rw [lowEnd, if_neg hnarrow, not_lt] at hin
      rw [highEnd]
      nlinarith

end Double

namespace Decimal

open Double

/-- Numbers of units and of powers of ten are compared by their products with the other scale. -/
theorem le_iff_of_units {u s : ℕ} {k : ℤ} {q : ℚ} (hs : 0 < s) (h : (u : ℚ) / s * 10 ^ k = q) (a b : ℕ) :
    (a * u ≤ b * s ↔ a * q ≤ b * 10 ^ k) ∧ (b * s ≤ a * u ↔ b * 10 ^ k ≤ a * q) := by
  have hs' : (0 : ℚ) < s := Nat.cast_pos.mpr hs
  have hk : (0 : ℚ) < 10 ^ k := by positivity
  have ha : (a : ℚ) * q = (a * u : ℕ) / s * 10 ^ k := by
    rw [← h]
    push_cast
    ring
  rw [ha, mul_le_mul_iff_left₀ hk, mul_le_mul_iff_left₀ hk, div_le_iff₀ hs', le_div_iff₀ hs']
  exact ⟨by exact_mod_cast Iff.rfl, by exact_mod_cast Iff.rfl⟩

namespace Binary

variable {x : Binary} {d n : ℕ} {k : ℤ}

theorem toFraction_spec (hm : 0 < x.mantissa) : 0 < x.toFraction.1 ∧ 0 < x.toFraction.2 ∧
    (x.toFraction.1 : ℚ) / x.toFraction.2 = x.mantissa * 2 ^ x.exponent := by
  obtain ⟨m, e⟩ := x
  rw [toFraction]
  split
  case isTrue he =>
    obtain ⟨n, rfl⟩ := Int.eq_ofNat_of_zero_le he
    refine ⟨Nat.mul_pos hm (Nat.pow_pos two_pos), one_pos, ?_⟩
    push_cast [Nat.pow_eq]
    rw [div_one, Int.toNat_natCast, zpow_natCast]
  case isFalse he =>
    obtain ⟨n, hn⟩ : ∃ n : ℕ, (-e).toNat = n := ⟨_, rfl⟩
    obtain rfl : e = -(n : ℤ) := by
      dsimp only at he
      omega
    refine ⟨hm, Nat.pow_pos two_pos, ?_⟩
    dsimp only
    rw [hn, zpow_neg, zpow_natCast]
    push_cast [Nat.pow_eq]
    rw [div_eq_mul_inv]

/-- A quarter of a unit of the last place, counted in units of `10 ^ k`. -/
def quarter (x : Binary) (k : ℤ) : ℕ × ℕ :=
  let fraction := toFraction ⟨1, x.exponent - 2⟩
  inUnits fraction.1 fraction.2 k

theorem quarter_spec (x : Binary) (k : ℤ) : 0 < (x.quarter k).2 ∧
    ((x.quarter k).1 : ℚ) / (x.quarter k).2 * 10 ^ k = 2 ^ (x.exponent - 2) := by
  obtain ⟨hn, hd, hvalue⟩ := toFraction_spec (x := ⟨1, x.exponent - 2⟩) one_pos
  obtain ⟨-, hscale, hunits⟩ := inUnits_spec hn hd k
  rw [hvalue, Nat.cast_one, one_mul] at hunits
  exact ⟨hscale, hunits⟩

theorem four_mul_quarter (e : ℤ) : 4 * (2 : ℚ) ^ (e - 2) = 2 ^ e := by
  rw [zpow_sub₀ two_ne_zero]
  norm_num
  ring

theorem roundingBounds_spec (hm : 0 < x.mantissa) :
    (x.roundingBounds.1 : ℚ) * 2 ^ (x.exponent - 2) = lowEnd x.mantissa x.exponent ∧
      (x.roundingBounds.2 : ℚ) * 2 ^ (x.exponent - 2) = highEnd x.mantissa x.exponent := by
  have hbounds : x.roundingBounds =
      (if x.mantissa = 2 ^ 52 ∧ -1074 < x.exponent then 4 * x.mantissa - 1 else 4 * x.mantissa - 2,
        4 * x.mantissa + 2) := rfl
  rw [hbounds, lowEnd, highEnd, ← four_mul_quarter x.exponent]
  constructor
  · split
    · rw [Nat.cast_sub (by omega)]
      push_cast
      ring
    · rw [Nat.cast_sub (by omega)]
      push_cast
      ring
  · push_cast
    ring

/-- Whether a decimal lies in the rounding interval. -/
def readsBack (x : Binary) (k : ℤ) (d : ℕ) : Bool :=
  let (unit, scale) := x.quarter k
  let (low, high) := x.roundingBounds
  if x.mantissa % 2 = 0 then low * unit ≤ d * scale && d * scale ≤ high * unit
  else low * unit < d * scale && d * scale < high * unit

/-- The largest decimal that is not above. -/
def below (x : Binary) (k : ℤ) : ℕ := 4 * x.mantissa * (x.quarter k).1 / (x.quarter k).2

/-- The power of ten at the last of `n` digits. -/
def lastPlace (x : Binary) (n : ℕ) : ℤ := leadingExponent x.toFraction.1 x.toFraction.2 - (n - 1)

/-- The decimal found with a number of digits rounds back; none is found if neither of the two around the
number does. -/
theorem shortestOf?_cases (x : Binary) (n : ℕ) :
    (x.shortestOf? n = none ∧ x.readsBack (x.lastPlace n) (x.below (x.lastPlace n)) = false ∧
        x.readsBack (x.lastPlace n) (x.below (x.lastPlace n) + 1) = false) ∨
      ∃ d, x.shortestOf? n = some (d, x.lastPlace n) ∧ x.readsBack (x.lastPlace n) d = true := by
  obtain ⟨found, hfound⟩ : ∃ found, x.shortestOf? n = found := ⟨_, rfl⟩
  rw [hfound]
  simp only [shortestOf?] at hfound
  split at hfound
  case h_1 hbelow habove =>
    refine .inr ⟨_, hfound.symm, ?_⟩
    split
    · exact habove
    · exact hbelow
  case h_2 hbelow habove => exact .inr ⟨_, hfound.symm, hbelow⟩
  case h_3 hbelow habove => exact .inr ⟨_, hfound.symm, habove⟩
  case h_4 hbelow habove => exact .inl ⟨hfound.symm, hbelow, habove⟩

theorem readsBack_iff (hm : 0 < x.mantissa) :
    x.readsBack k d = true ↔ Covers x.mantissa x.exponent (d * 10 ^ k) := by
  obtain ⟨hscale, hunit⟩ := x.quarter_spec k
  obtain ⟨hlow, hhigh⟩ := roundingBounds_spec hm
  have hle := le_iff_of_units hscale hunit x.roundingBounds.1 d
  have hge := le_iff_of_units hscale hunit x.roundingBounds.2 d
  rw [hlow] at hle
  rw [hhigh] at hge
  simp only [readsBack]
  split
  case isTrue heven =>
    rw [Bool.and_eq_true, decide_eq_true_eq, decide_eq_true_eq, hle.1, hge.2]
    exact ⟨fun h => ⟨h.1, h.2, fun hodd => by omega⟩, fun h => ⟨h.low_le, h.le_high⟩⟩
  case isFalse hodd =>
    rw [Bool.and_eq_true, decide_eq_true_eq, decide_eq_true_eq, ← not_le, ← not_le, hle.2, hge.1, not_le,
      not_le]
    exact ⟨fun h => .of_lt h.1 h.2, fun h => h.of_odd (by omega)⟩

/-- The number lies between two neighbours of a place. -/
theorem below_spec (x : Binary) (k : ℤ) : (x.below k : ℚ) * 10 ^ k ≤ x.mantissa * 2 ^ x.exponent ∧
    (x.mantissa : ℚ) * 2 ^ x.exponent < x.below k * 10 ^ k + 10 ^ k := by
  obtain ⟨hscale, hunit⟩ := x.quarter_spec k
  have hvalue : (4 * x.mantissa : ℕ) * (2 : ℚ) ^ (x.exponent - 2) = x.mantissa * 2 ^ x.exponent := by
    rw [← four_mul_quarter x.exponent]
    push_cast
    ring
  have hle := (le_iff_of_units hscale hunit (4 * x.mantissa) (x.below k)).2
  have hlt := (le_iff_of_units hscale hunit (4 * x.mantissa) (x.below k + 1)).2
  rw [hvalue] at hle hlt
  refine ⟨hle.mp (Nat.div_mul_le_self _ _), ?_⟩
  have hnext : ¬(x.below k + 1) * (x.quarter k).2 ≤ 4 * x.mantissa * (x.quarter k).1 := by
    rw [not_le, mul_comm (x.below k + 1)]
    exact Nat.lt_mul_div_succ _ hscale
  have hlt' := not_le.mp (hlt.not.mp hnext)
  push_cast at hlt'
  linarith

/-- Seventeen digits are enough for every double. -/
theorem shortestOf?_seventeen (hm : 0 < x.mantissa) (hlt : x.mantissa < 2 ^ 53) :
    x.shortestOf? 17 ≠ none := by
  obtain ⟨hnum, hden, hfraction⟩ := toFraction_spec hm
  set k := x.lastPlace 17 with hk
  have hunit : (10 : ℚ) ^ k * 10 ^ 16 ≤ x.mantissa * 2 ^ x.exponent := by
    rw [← hfraction]
    convert pow_leadingExponent_le hnum hden using 1
    rw [hk, lastPlace, ← zpow_natCast, ← zpow_add₀ (by norm_num)]
    congr 1
    push_cast
    ring
  obtain ⟨hle, hgt⟩ := x.below_spec k
  intro hnone
  rcases x.shortestOf?_cases 17 with ⟨-, hbelow, habove⟩ | ⟨d, hsome, -⟩
  · have hsucc : ((x.below k + 1 : ℕ) : ℚ) * 10 ^ k = x.below k * 10 ^ k + 10 ^ k := by
      push_cast
      ring
    rcases covers_of_around hlt hle hgt rfl hunit with h | h
    · rw [(readsBack_iff hm).mpr h] at hbelow
      cases hbelow
    · rw [(readsBack_iff hm).mpr (hsucc ▸ h)] at habove
      cases habove
  · rw [hnone] at hsome
    cases hsome

/-- What is printed for a double rounds back to it. -/
theorem shortest_covers (hm : 0 < x.mantissa) (hlt : x.mantissa < 2 ^ 53) :
    Covers x.mantissa x.exponent (x.shortest.1 * 10 ^ x.shortest.2) := by
  obtain ⟨⟨d, k⟩, hfound⟩ : ∃ r, (List.range 17).findSome? (fun n => x.shortestOf? (n + 1)) = some r := by
    rw [← Option.isSome_iff_exists, List.findSome?_isSome_iff]
    exact ⟨16, by decide, Option.isSome_iff_ne_none.mpr (shortestOf?_seventeen hm hlt)⟩
  obtain ⟨n, -, hn⟩ := List.exists_of_findSome?_eq_some hfound
  have hshortest : x.shortest = stripZeros d k := by
    rw [shortest, hfound]
    rfl
  rcases x.shortestOf?_cases (n + 1) with ⟨hnone, -⟩ | ⟨d', hsome, hreads⟩
  · rw [hnone] at hn
    cases hn
  · rw [hsome] at hn
    cases hn
    rw [hshortest, stripZeros_value]
    exact (readsBack_iff hm).mp hreads

end Binary

end Decimal

end Oscillator
