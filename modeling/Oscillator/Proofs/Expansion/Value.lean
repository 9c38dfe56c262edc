import Mathlib.Analysis.SpecialFunctions.Trigonometric.Basic
import Oscillator.Proofs.Exact.Numbers
import Oscillator.Proofs.Expansion.Steps

/-! # Values of expressions

The value of an expression at a time, for given values of its symbols, and the value of a sum of
monomials. An operation without a result makes everything undefined that it is part of, so a value
that is a real number tells that every operation on the way to it had one.
-/
namespace Oscillator

section

variable {α : Type} [Arithmetic α]

def Op.apply : Op → α → α → α
  | add, x, y => x + y
  | sub, x, y => x - y
  | mul, x, y => x * y
  | div, x, y => x / y
  | pow, x, y => Arithmetic.pow x y

/-- The value at the time `t`, where the symbols have the values `σ`. -/
def Expr.value (σ : String → α) (t : α) : Expr α → α
  | number x => x
  | symbol name =>
    if name = timeName then t else if name = eulerName then Arithmetic.euler else σ name
  | negate e => -e.value σ t
  | binary op left right => op.apply (left.value σ t) (right.value σ t)
  | call f arg => f.apply (arg.value σ t)
  | unknown _ => Arithmetic.undefined

section

variable {σ : String → α} {t : α}

theorem Expr.value_symbol {name : String} : (symbol name).value σ t =
    if name = timeName then t else if name = eulerName then Arithmetic.euler else σ name := rfl

theorem Expr.value_binary {op : Op} {left right : Expr α} : (binary op left right).value σ t =
    op.apply (left.value σ t) (right.value σ t) := rfl

theorem Expr.value_call {f : Func} {arg : Expr α} : (call f arg).value σ t =
    f.apply (arg.value σ t) := rfl

end

def Arithmetic.ofInt : Int → α
  | .ofNat n => (n : α)
  | .negSucc n => -((n + 1 : Nat) : α)

/-- The wave that a term oscillates with, or one. -/
def Oscillation.factor (t : α) : Option (Oscillation α) → α
  | none => 1
  | some ⟨.cosine, w⟩ => Arithmetic.cos (w * t)
  | some ⟨.sine, w⟩ => Arithmetic.sin (w * t)

theorem Oscillation.factor_none {t : α} : factor t none = 1 := rfl

namespace Monomial

/-- The value at a time, where every symbol counts as one. -/
def value (m : Monomial α) (t : α) : α :=
  m.coefficient * Arithmetic.pow t (Arithmetic.ofInt m.timePower) * Arithmetic.exp (m.rate * t)
    * Oscillation.factor t m.oscillation

def sumValue (ts : List (Monomial α)) (t : α) : α := ts.foldr (fun m x => m.value t + x) 0

end Monomial

end

namespace Exact

@[simp] theorem ofInt_eq (n : ℤ) : (Arithmetic.ofInt n : Exact) = real n := by
  cases n with
  | ofNat n => exact natCast_eq n
  | negSucc n =>
    rw [Arithmetic.ofInt, natCast_eq, real_neg, Int.cast_negSucc]

@[simp] theorem pow_real (x y : ℝ) : Arithmetic.pow (real x) (real y) = power x y := rfl

theorem zero_eq : (0 : Exact) = real 0 := (ofNat_eq 0).trans (congrArg real Nat.cast_zero)

theorem one_eq : (1 : Exact) = real 1 := (ofNat_eq 1).trans (congrArg real Nat.cast_one)

variable {a b : Exact} {x y z : ℝ}

theorem power_eq_real : power x y = real z ↔
    ¬((x = 0 ∧ y < 0) ∨ (x < 0 ∧ y ≠ ⌊y⌋)) ∧ x ^ y = z := by
  unfold power
  split
  case isTrue h => simp [h]
  case isFalse h => simp [h]

theorem power_intCast_eq_real {n : ℤ} : power x n = real z ↔ (x = 0 → 0 ≤ n) ∧ x ^ n = z := by
  rw [power_eq_real, Real.rpow_intCast]
  simp

theorem exp_eq_real : Arithmetic.exp a = real z ↔ ∃ x, a = real x ∧ Real.exp x = z := by
  cases a with
  | undefined => exact ⟨fun h => (by cases h), by simp⟩
  | real x => simp

theorem exists_real_of_apply {f : Func} (h : f.apply a = real z) : ∃ x, a = real x := by
  cases a with
  | real x => exact ⟨x, rfl⟩
  | undefined => cases f <;> cases h

end Exact

open Exact

noncomputable def Wave.function : Wave → ℝ → ℝ
  | cosine => Real.cos
  | sine => Real.sin

namespace Monomial

variable {m a b : Monomial Exact} {t x y : ℝ}

theorem value_eq_real : m.value (real t) = real x ↔
    ∃ c r w : ℝ, m.coefficient = real c ∧ m.rate = real r ∧
      Oscillation.factor (real t) m.oscillation = real w ∧ (t = 0 → 0 ≤ m.timePower) ∧
      c * t ^ m.timePower * Real.exp (r * t) * w = x := by
  constructor
  · intro h
    obtain ⟨y, w, hy, hw, rfl⟩ := mul_eq_real.mp h
    obtain ⟨z, e, hz, he, rfl⟩ := mul_eq_real.mp hy
    obtain ⟨c, p, hc, hp, rfl⟩ := mul_eq_real.mp hz
    obtain ⟨s, hs, rfl⟩ := exp_eq_real.mp he
    obtain ⟨r, t', hr, ht, rfl⟩ := mul_eq_real.mp hs
    cases ht
    rw [ofInt_eq, pow_real] at hp
    obtain ⟨hn, rfl⟩ := power_intCast_eq_real.mp hp
    exact ⟨c, r, w, hc, hr, hw, hn, rfl⟩
  · rintro ⟨c, r, w, hc, hr, hw, hn, rfl⟩
    rw [value, hc, hr, hw, ofInt_eq, pow_real, power_intCast_eq_real.mpr ⟨hn, rfl⟩]
    rfl

/-- A term that does not oscillate, with no negative power of time. -/
theorem value_nonoscillating (c r : ℝ) (n : ℕ) (names : Names) :
    (⟨real c, real r, n, none, names⟩ : Monomial Exact).value (real t) =
      real (c * t ^ n * Real.exp (r * t)) :=
  value_eq_real.mpr ⟨c, r, 1, rfl, rfl, one_eq, fun _ => Int.natCast_nonneg n, by
    rw [zpow_natCast, mul_one]⟩

theorem value_exponential (c r : ℝ) :
    (exponential (real c) (real r)).value (real t) = real (c * Real.exp (r * t)) :=
  (value_nonoscillating c r 0 []).trans (by rw [pow_zero, mul_one])

theorem value_constant (c : Exact) : (constant c).value (real t) = c := by
  cases c with
  | undefined => rfl
  | real c =>
    change (⟨real c, 0, 0, none, []⟩ : Monomial Exact).value (real t) = real c
    rw [zero_eq]
    exact (value_exponential c 0).trans (by rw [zero_mul, Real.exp_zero, mul_one])

theorem value_time : time.value (real t) = real t := by
  change (⟨1, 0, 1, none, []⟩ : Monomial Exact).value (real t) = real t
  rw [zero_eq, one_eq]
  exact (value_nonoscillating 1 0 1 []).trans (by
    rw [pow_one, one_mul, zero_mul, Real.exp_zero, mul_one])

theorem value_symbol (name : String) : (symbol name).value (real t) = real 1 := by
  change (⟨1, 0, 0, none, [name]⟩ : Monomial Exact).value (real t) = real 1
  rw [zero_eq, one_eq]
  exact (value_nonoscillating 1 0 0 [name]).trans (by
    rw [pow_zero, mul_one, zero_mul, Real.exp_zero, mul_one])

theorem value_oscillating (c w : ℝ) (wave : Wave) :
    (oscillating (real c) wave (real w)).value (real t) = real (c * wave.function (w * t)) := by
  refine value_eq_real.mpr ⟨c, 0, wave.function (w * t), rfl, zero_eq, ?_, fun _ => le_rfl, ?_⟩
  · cases wave <;> rfl
  · change c * t ^ (0 : ℤ) * Real.exp (0 * t) * wave.function (w * t) = _
    rw [zpow_zero, zero_mul, Real.exp_zero, mul_one, mul_one]

theorem value_negate (h : m.value (real t) = real x) : m.negate.value (real t) = real (-x) := by
  obtain ⟨c, r, w, hc, hr, hw, hn, rfl⟩ := value_eq_real.mp h
  have hcoefficient : m.negate.coefficient = real (-c) := congrArg (- ·) hc
  refine value_eq_real.mpr ⟨-c, r, w, hcoefficient, hr, hw, hn, ?_⟩
  change -c * t ^ m.timePower * Real.exp (r * t) * w = _
  rw [neg_mul, neg_mul, neg_mul]

theorem value_mul (h : a.mul b = .ok m) (ha : a.value (real t) = real x)
    (hb : b.value (real t) = real y) : m.value (real t) = real (x * y) := by
  obtain ⟨hosc, rfl⟩ := mul_eq_ok.mp h
  obtain ⟨c, r, w, hc, hr, hw, hn, rfl⟩ := value_eq_real.mp ha
  obtain ⟨c', r', w', hc', hr', hw', hn', rfl⟩ := value_eq_real.mp hb
  have hfactor : Oscillation.factor (real t) (a.oscillation <|> b.oscillation) = real (w * w') := by
    rcases hosc with hosc | hosc
    · rw [hosc, Oscillation.factor_none, one_eq] at hw
      cases hw
      rw [hosc, one_mul]
      exact hw'
    · rw [hosc, Oscillation.factor_none, one_eq] at hw'
      cases hw'
      rw [hosc, mul_one]
      simpa using hw
  -- Exponents add up except at time zero, where the powers are no negative ones.
  have hpower : t ^ (a.timePower + b.timePower) = t ^ a.timePower * t ^ b.timePower := by
    apply zpow_add'
    by_cases ht : t = 0
    · have := hn ht
      have := hn' ht
      omega
    · exact Or.inl ht
  refine value_eq_real.mpr ⟨c * c', r + r', w * w', by rw [hc, hc']; rfl, by rw [hr, hr']; rfl,
    hfactor, fun ht => add_nonneg (hn ht) (hn' ht), ?_⟩
  change c * c' * t ^ (a.timePower + b.timePower) * Real.exp ((r + r') * t) * (w * w') = _
  rw [hpower, add_mul, Real.exp_add]
  ring

/-- Where a divisor has a value other than zero, its powers of time can be turned round. -/
theorem value_reciprocal (h : a.reciprocal = .ok m) (ha : a.value (real t) = real x) (hx : x ≠ 0) :
    m.value (real t) = real x⁻¹ := by
  obtain ⟨hosc, -, -, rfl⟩ := reciprocal_eq_ok.mp h
  obtain ⟨c, r, w, hc, hr, hw, hn, rfl⟩ := value_eq_real.mp ha
  rw [hosc, Oscillation.factor_none, one_eq] at hw
  cases hw
  have hc0 : c ≠ 0 := by
    rintro rfl
    rw [zero_mul, zero_mul, zero_mul] at hx
    exact hx rfl
  refine value_eq_real.mpr ⟨c⁻¹, -r, 1, ?_, by rw [hr]; rfl, one_eq, ?_, ?_⟩
  · rw [hc, one_eq, real_div hc0, one_div]
  · intro ht
    have hpow : t ^ a.timePower ≠ 0 := by
      intro hpow
      rw [hpow, mul_zero, zero_mul, zero_mul] at hx
      exact hx rfl
    rw [ht] at hpow
    have : a.timePower = 0 := by
      by_contra hne
      exact hpow (zero_zpow _ hne)
    change 0 ≤ -a.timePower
    omega
  · change c⁻¹ * t ^ (-a.timePower) * Real.exp (-r * t) * 1 = _
    rw [zpow_neg, neg_mul, Real.exp_neg, mul_one, mul_one, mul_inv, mul_inv]

/-! Sums. -/

variable {ts left right base : List (Monomial Exact)}

@[simp] theorem sumValue_nil : sumValue [] (real t) = real 0 := zero_eq

theorem sumValue_cons_eq_real : sumValue (m :: ts) (real t) = real x ↔
    ∃ y z, m.value (real t) = real y ∧ sumValue ts (real t) = real z ∧ y + z = x := add_eq_real

theorem sumValue_singleton : sumValue [m] (real t) = real x ↔ m.value (real t) = real x := by
  rw [sumValue_cons_eq_real]
  simp

theorem sumValue_waves (c d w : ℝ) (first second : Wave) :
    sumValue [oscillating (real c) first (real w), oscillating (real d) second (real w)] (real t) =
      real (c * first.function (w * t) + d * second.function (w * t)) := by
  have hsecond := sumValue_singleton.mpr (value_oscillating (t := t) d w second)
  exact sumValue_cons_eq_real.mpr ⟨_, _, value_oscillating c w first, hsecond, rfl⟩

theorem sumValue_append (hl : sumValue left (real t) = real x)
    (hr : sumValue right (real t) = real y) : sumValue (left ++ right) (real t) = real (x + y) := by
  induction left generalizing x with
  | nil =>
    rw [sumValue_nil] at hl
    cases hl
    rwa [List.nil_append, zero_add]
  | cons m ts ih =>
    obtain ⟨z, w, hm, hts, rfl⟩ := sumValue_cons_eq_real.mp hl
    exact sumValue_cons_eq_real.mpr ⟨z, w + y, hm, ih hts, by ring⟩

theorem sumValue_negate (h : sumValue ts (real t) = real x) :
    sumValue (ts.map .negate) (real t) = real (-x) := by
  induction ts generalizing x with
  | nil =>
    rw [sumValue_nil] at h
    cases h
    simp
  | cons m ts ih =>
    obtain ⟨y, z, hm, hts, rfl⟩ := sumValue_cons_eq_real.mp h
    exact sumValue_cons_eq_real.mpr ⟨-y, -z, value_negate hm, ih hts, by ring⟩

/-- Terms of coefficient zero add nothing, as long as they have a value. -/
theorem sumValue_nonzero (h : sumValue ts (real t) = real x) :
    sumValue (nonzero ts) (real t) = real x := by
  induction ts generalizing x with
  | nil => exact h
  | cons m ts ih =>
    obtain ⟨y, z, hm, hts, rfl⟩ := sumValue_cons_eq_real.mp h
    have hcons : nonzero (m :: ts) = if m.coefficient != 0 then m :: nonzero ts else nonzero ts :=
      List.filter_cons
    cases hc : m.coefficient != 0 with
    | true =>
      rw [hcons, hc, if_pos rfl]
      exact sumValue_cons_eq_real.mpr ⟨y, z, hm, ih hts, rfl⟩
    | false =>
      rw [hcons, hc, if_neg Bool.false_ne_true]
      obtain ⟨c, r, w, hc', -, -, -, rfl⟩ := value_eq_real.mp hm
      have hzero : c = 0 := by simpa [hc', bne] using hc
      rw [hzero]
      simpa using ih hts

theorem sumValue_map_mul (h : right.map m.mul = ts.map .ok) (hm : m.value (real t) = real x)
    (hr : sumValue right (real t) = real y) : sumValue ts (real t) = real (x * y) := by
  induction right generalizing ts y with
  | nil =>
    rw [sumValue_nil] at hr
    cases hr
    cases ts with
    | nil => simp
    | cons => simp at h
  | cons b right ih =>
    obtain ⟨z, w, hb, hright, rfl⟩ := sumValue_cons_eq_real.mp hr
    cases ts with
    | nil => simp at h
    | cons p ts =>
      obtain ⟨hp, hts⟩ := List.cons.inj h
      exact sumValue_cons_eq_real.mpr ⟨x * z, x * w, value_mul hp hm hb, ih hts hright, by ring⟩

theorem sumValue_products (h : products left right = ts.map .ok)
    (hl : sumValue left (real t) = real x) (hr : sumValue right (real t) = real y) :
    sumValue ts (real t) = real (x * y) := by
  induction left generalizing ts x with
  | nil =>
    rw [sumValue_nil] at hl
    cases hl
    cases ts with
    | nil => simp
    | cons => simp [products] at h
  | cons m left ih =>
    obtain ⟨z, w, hm, hleft, rfl⟩ := sumValue_cons_eq_real.mp hl
    rw [products, List.flatMap_cons] at h
    obtain ⟨first, rest, rfl, hfirst, hrest⟩ := List.map_eq_append_iff.mp h.symm
    have hsum := sumValue_append (sumValue_map_mul hfirst.symm hm hr) (ih hrest.symm hleft)
    rwa [← add_mul] at hsum

end Monomial

end Oscillator
