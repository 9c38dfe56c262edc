import Oscillator.Proofs.Expansion.Value

/-! # Linear readings keep the value

The reader of rates, frequencies, phases and exponents is an interpreter of its own. Where an
expression has a value, its linear reading has the same one, and so have the waves and exponentials
that a function of a linear argument is expanded to.
-/
namespace Oscillator

open Exact Monomial

variable {σ : String → Exact} {t x : ℝ}

theorem Exact.sign_real (a : ℝ) : Arithmetic.sign (real a) = real (if a < 0 then -1 else 1) := by
  by_cases ha : a < 0 <;> simp [Arithmetic.sign, Arithmetic.isUndefined, ha]

namespace Linear

theorem isConstant_real {a : ℝ} {b : Exact} : isConstant ⟨real a, b⟩ = true ↔ a = 0 := by
  simp [isConstant]

/-- What two linear readings combine to is the reading of the operation. -/
theorem combine?_value {op : Op} {a b a' b' : ℝ} {p : Linear Exact}
    (h : combine? op ⟨real a, real b⟩ ⟨real a', real b'⟩ = some p)
    (hx : op.apply (real (a * t + b)) (real (a' * t + b')) = real x) :
    ∃ c d : ℝ, p = ⟨real c, real d⟩ ∧ c * t + d = x := by
  cases op with
  | add =>
    cases h
    cases hx
    exact ⟨a + a', b + b', rfl, by ring⟩
  | sub =>
    cases h
    cases hx
    exact ⟨a - a', b - b', rfl, by ring⟩
  | mul =>
    cases hx
    by_cases ha : a = 0
    · rw [combine?, if_pos (isConstant_real.mpr ha)] at h
      cases h
      exact ⟨b * a', b * b', rfl, by rw [ha]; ring⟩
    · rw [combine?, if_neg (mt isConstant_real.mp ha)] at h
      by_cases ha' : a' = 0
      · rw [if_pos (isConstant_real.mpr ha')] at h
        cases h
        exact ⟨a * b', b * b', rfl, by rw [ha']; ring⟩
      · rw [if_neg (mt isConstant_real.mp ha')] at h
        cases h
  | div =>
    by_cases hc : a' = 0 ∧ b' ≠ 0
    · obtain ⟨rfl, hb⟩ := hc
      have hcond : (isConstant ⟨real 0, real b'⟩ && real b' != 0) = true := by simp [isConstant, bne, hb]
      rw [combine?, if_pos hcond, real_div hb, real_div hb] at h
      cases h
      rw [zero_mul, zero_add] at hx
      obtain ⟨_, _, hl, hr, -, rfl⟩ := div_eq_real.mp hx
      cases hl
      cases hr
      exact ⟨a / b', b / b', rfl, by field_simp⟩
    · have hcond : ¬(isConstant ⟨real a', real b'⟩ && real b' != 0) = true := by
        simpa [isConstant, bne] using hc
      rw [combine?, if_neg hcond] at h
      cases h
  | pow =>
    by_cases hc : a = 0 ∧ a' = 0
    · obtain ⟨rfl, rfl⟩ := hc
      have hcond : (isConstant ⟨real 0, real b⟩ && isConstant ⟨real 0, real b'⟩) = true := by
        simp [isConstant]
      rw [combine?, if_pos hcond] at h
      cases h
      simp only [zero_mul, zero_add, Op.apply] at hx
      exact ⟨0, x, by rw [constant, hx, zero_eq], by ring⟩
    · have hcond : ¬(isConstant ⟨real a, real b⟩ && isConstant ⟨real a', real b'⟩) = true := by
        simpa [isConstant] using hc
      rw [combine?, if_neg hcond] at h
      cases h

end Linear

namespace Expr

variable {e left right arg : Expr Exact} {f : Func} {ts : List (Monomial Exact)}

theorem value_binary_eq_real {op : Op} (h : (binary op left right).value σ (real t) = real x) :
    ∃ y z : ℝ, left.value σ (real t) = real y ∧ right.value σ (real t) = real z ∧
      op.apply (real y) (real z) = real x := by
  rw [value_binary] at h
  cases hl : left.value σ (real t) with
  | undefined => rw [hl] at h; cases op <;> cases h
  | real y =>
    cases hr : right.value σ (real t) with
    | undefined => rw [hl, hr] at h; cases op <;> cases h
    | real z => exact ⟨y, z, rfl, rfl, by rw [← h, hl, hr]⟩

theorem value_call_eq_real (h : (call f arg).value σ (real t) = real x) :
    ∃ y : ℝ, arg.value σ (real t) = real y ∧ f.apply (real y) = real x := by
  rw [value_call] at h
  obtain ⟨y, hy⟩ := exists_real_of_apply h
  exact ⟨y, hy, by rw [← h, hy]⟩

/-- A linear reading has the value of the expression. -/
theorem linearIn_value {p : Linear Exact} (h : e.linearIn timeName = some p)
    (hx : e.value σ (real t) = real x) : ∃ a b : ℝ, p = ⟨real a, real b⟩ ∧ a * t + b = x := by
  induction e generalizing p x with
  | number y =>
    cases h
    cases hx
    exact ⟨0, x, by rw [Linear.constant, zero_eq], by ring⟩
  | symbol name =>
    rw [linearIn_symbol] at h
    rw [value_symbol] at hx
    by_cases ht : name = timeName
    · rw [if_pos ht] at h hx
      cases h
      cases hx
      exact ⟨1, 0, by rw [zero_eq, one_eq], by ring⟩
    · rw [if_neg ht] at h hx
      by_cases he : name = eulerName
      · rw [if_pos he] at h hx
        cases h
        exact ⟨0, x, by rw [Linear.constant, hx, zero_eq], by ring⟩
      · rw [if_neg he] at h
        cases h
  | negate e ih =>
    obtain ⟨q, hq, rfl⟩ := linearIn_negate.mp h
    obtain ⟨a, b, rfl, hy⟩ := ih hq (neg_eq_real.mp hx)
    exact ⟨-a, -b, rfl, by linarith⟩
  | binary op left right ihl ihr =>
    obtain ⟨y, z, hy, hz, hop⟩ := value_binary_eq_real hx
    obtain ⟨p', q', hp', hq', hcombine⟩ := linearIn_binary.mp h
    obtain ⟨a, b, rfl, rfl⟩ := ihl hp' hy
    obtain ⟨a', b', rfl, rfl⟩ := ihr hq' hz
    exact Linear.combine?_value hcombine hop
  | call f arg ih =>
    obtain ⟨y, hy, hf⟩ := value_call_eq_real hx
    obtain ⟨q, hq, hcall⟩ := linearIn_call.mp h
    obtain ⟨a, b, rfl, rfl⟩ := ih hq hy
    obtain ⟨ha, -, rfl⟩ := call?_eq_some.mp hcall
    rw [Linear.isConstant_real.mp ha, zero_mul, zero_add] at hf
    exact ⟨0, x, by rw [Linear.constant, hf, zero_eq], by ring⟩
  | unknown command => cases hx

theorem constantValue_value {c : Exact} (h : e.constantValue = some c)
    (hx : e.value σ (real t) = real x) : c = real x := by
  obtain ⟨p, hp, ha, rfl⟩ := constantValue_eq_some.mp h
  obtain ⟨a, b, rfl, rfl⟩ := linearIn_value hp hx
  rw [Linear.isConstant_real.mp ha, zero_mul, zero_add]

theorem cos_frequency (a t : ℝ) : Real.cos (|a| * t) = Real.cos (a * t) := by
  rcases abs_choice a with ha | ha
  · rw [ha]
  · rw [ha, neg_mul, Real.cos_neg]

theorem sin_frequency (a t : ℝ) :
    (if a < 0 then -1 else 1) * Real.sin (|a| * t) = Real.sin (a * t) := by
  by_cases ha : a < 0
  · rw [if_pos ha, abs_of_neg ha, neg_one_mul, neg_mul, Real.sin_neg, neg_neg]
  · rw [if_neg ha, abs_of_nonneg (not_lt.mp ha), one_mul]

/-- The addition theorems, with the sign of a slope taken out of the frequency. -/
theorem expandCall_sumValue {a b : ℝ} (h : expandCall f ⟨real a, real b⟩ = .ok ts)
    (hx : f.apply (real (a * t + b)) = real x) : sumValue ts (real t) = real x := by
  by_cases hf : f = .exp
  · subst hf
    cases expandCall_exp.mp h
    cases hx
    rw [sumValue_singleton, exp_real, value_exponential, add_comm, Real.exp_add]
  by_cases ha : a = 0
  · obtain ⟨-, rfl⟩ := (expandCall_of_isConstant (Linear.isConstant_real.mpr ha) hf).mp h
    rw [ha, zero_mul, zero_add] at hx
    rw [sumValue_singleton, value_constant, hx]
  · have hc : Linear.isConstant ⟨real a, real b⟩ = false :=
      Bool.eq_false_iff.mpr (mt Linear.isConstant_real.mp ha)
    rcases (expandCall_of_varying hc hf).mp h with ⟨rfl, rfl⟩ | ⟨rfl, rfl⟩
    · cases hx
      simp only [sign_real, abs_real, cos_real, sin_real, real_mul, sumValue_waves, Wave.function]
      rw [Real.sin_add, cos_frequency, ← sin_frequency a t]
      ring_nf
    · cases hx
      simp only [sign_real, abs_real, cos_real, sin_real, real_neg, real_mul, sumValue_waves,
        Wave.function]
      rw [Real.cos_add, cos_frequency, ← sin_frequency a t]
      ring_nf

end Expr

end Oscillator
