import Oscillator.Proofs.Motion.Spring

/-! # Roots of a spring

The characteristics of a system speak of one polynomial. Its two roots are found in the complex plane with
one root of the discriminant; on which axis that lies decides whether the motion oscillates.
-/
namespace Oscillator

open ComplexNumber

namespace Spring

variable (o : Spring)

/-- A root of the characteristic polynomial. -/
def IsRoot (r : ℂ) : Prop := o.mass * r ^ 2 + o.damping * r + o.stiffness = 0

noncomputable def firstRoot : ℂ := -(o.ratio + axisSqrt (o.ratio ^ 2 - 1)) * o.frequency

noncomputable def secondRoot : ℂ := -(o.ratio - axisSqrt (o.ratio ^ 2 - 1)) * o.frequency

/-- The polynomial in terms of frequency and damping ratio. -/
theorem isRoot_iff (r : ℂ) :
    o.IsRoot r ↔ r ^ 2 + 2 * (o.frequency * o.ratio) * r + o.frequency ^ 2 = 0 := by
  have hm : (o.mass : ℂ) ≠ 0 := Complex.ofReal_ne_zero.mpr o.mass_pos.ne'
  have hc : (o.damping : ℂ) = o.mass * (2 * (o.frequency * o.ratio)) := by
    have hreal : o.damping = o.mass * (2 * (o.frequency * o.ratio)) := by
      rw [o.frequency_mul_ratio, two_mul, o.rate_add_rate, mul_div_cancel₀ _ o.mass_pos.ne']
    exact_mod_cast hreal
  have hk : (o.stiffness : ℂ) = o.mass * o.frequency ^ 2 := by
    have hreal : o.stiffness = o.mass * o.frequency ^ 2 := by
      rw [o.frequency_sq, mul_div_cancel₀ _ o.mass_pos.ne']
    exact_mod_cast hreal
  have hsplit : o.mass * r ^ 2 + o.damping * r + o.stiffness =
      o.mass * (r ^ 2 + 2 * (o.frequency * o.ratio) * r + o.frequency ^ 2) := by
    rw [hc, hk]
    ring
  rw [IsRoot, hsplit, mul_eq_zero, or_iff_right hm]

theorem isRoot_of_sq {d : ℂ} (hd : d ^ 2 = ((o.ratio ^ 2 - 1 : ℝ) : ℂ)) :
    o.IsRoot (-(o.ratio + d) * o.frequency) := by
  push_cast at hd
  rw [isRoot_iff]
  linear_combination (o.frequency : ℂ) ^ 2 * hd

theorem isRoot_firstRoot : o.IsRoot o.firstRoot := o.isRoot_of_sq (axisSqrt_sq _)

theorem isRoot_secondRoot : o.IsRoot o.secondRoot := by
  rw [secondRoot, sub_eq_add_neg]
  exact o.isRoot_of_sq ((neg_sq _).trans (axisSqrt_sq _))

variable {o}

/-- Above critical damping the roots are real and negative. -/
theorem roots_of_gt (h : 1 < o.ratio) : o.firstRoot.im = 0 ∧ o.secondRoot.im = 0 ∧
    o.firstRoot.re < o.secondRoot.re ∧ o.secondRoot.re < 0 := by
  have hw := o.frequency_pos
  have hpos : 0 < o.ratio ^ 2 - 1 := by nlinarith
  have hroot : 0 < √(o.ratio ^ 2 - 1) := Real.sqrt_pos.mpr hpos
  have hlt : √(o.ratio ^ 2 - 1) < o.ratio := (Real.sqrt_lt' (by linarith)).mpr (by linarith)
  have hfirst : o.firstRoot = ((-(o.ratio + √(o.ratio ^ 2 - 1)) * o.frequency : ℝ) : ℂ) := by
    rw [firstRoot, axisSqrt_of_nonneg hpos.le]
    push_cast
    rfl
  have hsecond : o.secondRoot = ((-(o.ratio - √(o.ratio ^ 2 - 1)) * o.frequency : ℝ) : ℂ) := by
    rw [secondRoot, axisSqrt_of_nonneg hpos.le]
    push_cast
    rfl
  rw [hfirst, hsecond]
  exact ⟨Complex.ofReal_im _, Complex.ofReal_im _, mul_lt_mul_of_pos_right (by linarith) hw,
    mul_neg_of_neg_of_pos (by linarith) hw⟩

theorem roots_of_eq (h : o.ratio = 1) :
    o.firstRoot = -(o.frequency : ℂ) ∧ o.secondRoot = -(o.frequency : ℂ) := by
  have hd : axisSqrt (o.ratio ^ 2 - 1) = 0 := by
    rw [h, axisSqrt_of_nonneg (by norm_num)]
    simp
  rw [firstRoot, secondRoot, hd, h]
  simp

/-- Below critical damping the roots are conjugate, with the damped frequency as imaginary part. -/
theorem roots_of_lt (h : o.ratio < 1) {omegaD : ℝ} (hpos : 0 < omegaD)
    (hsq : omegaD ^ 2 = o.frequency ^ 2 - o.rate ^ 2) :
    o.firstRoot = ⟨-o.rate, -omegaD⟩ ∧ o.secondRoot = ⟨-o.rate, omegaD⟩ := by
  have hneg : o.ratio ^ 2 - 1 < 0 := by nlinarith [o.ratio_nonneg]
  have hroot : √(-(o.ratio ^ 2 - 1)) * o.frequency = omegaD := by
    have hw := o.frequency_pos.le
    refine (sq_eq_sq₀ (by positivity) hpos.le).mp ?_
    rw [mul_pow, Real.sq_sqrt (by linarith), hsq, ← o.frequency_mul_ratio]
    ring
  rw [firstRoot, secondRoot, axisSqrt_of_neg hneg]
  constructor
  · apply Complex.ext
    · simp [← o.frequency_mul_ratio, mul_comm]
    · simp [← hroot]
  · apply Complex.ext
    · simp [← o.frequency_mul_ratio, mul_comm]
    · simp [← hroot]

end Spring

namespace System.HasConstants

open Characteristics

variable {s : System Exact} {o : Spring} (h : s.HasConstants o)
include h

theorem roots_eq : (ofSystem s).firstRoot = .exact o.firstRoot ∧
    (ofSystem s).secondRoot = .exact o.secondRoot := by
  rw [h.ofSystem_eq, Spring.firstRoot, Spring.secondRoot]
  exact Prod.ext_iff.mp (roots_exact o.frequency o.ratio)

end System.HasConstants

/-- The characteristics of a valid system are those of one polynomial. The decay rate is the damping ratio
times the frequency, both roots are roots of the polynomial, and the ratio decides where they lie; only
below critical damping there is a damped oscillation. -/
theorem Characteristics.ofSystem_describes {s : System Exact} {o : Spring} (h : s.HasConstants o) :
    let c := ofSystem s
    c.decayRate = c.dampingRatio * c.naturalFrequency ∧
      ∃ (omega alpha zeta : ℝ) (r₁ r₂ : ℂ), c.naturalFrequency = .real omega ∧ c.decayRate = .real alpha ∧
        c.dampingRatio = .real zeta ∧ c.firstRoot = .exact r₁ ∧ c.secondRoot = .exact r₂ ∧
        o.IsRoot r₁ ∧ o.IsRoot r₂ ∧
        (1 < zeta → r₁.im = 0 ∧ r₂.im = 0 ∧ r₁.re < r₂.re ∧ r₂.re < 0) ∧
        (zeta = 1 → r₁ = -(omega : ℂ) ∧ r₂ = -(omega : ℂ)) ∧
        (zeta < 1 → ∃ omegaD period : ℝ, c.dampedFrequency = some (.real omegaD) ∧
          c.dampedPeriod = some (.real period) ∧ c.logarithmicDecrement = some (.real (alpha * period)) ∧
          r₁ = ⟨-alpha, -omegaD⟩ ∧ r₂ = ⟨-alpha, omegaD⟩ ∧ 0 < omegaD ∧
          omegaD ^ 2 = omega ^ 2 - alpha ^ 2 ∧ omegaD * period = 2 * Real.pi) ∧
        (1 ≤ zeta → c.dampedFrequency = none ∧ c.dampedPeriod = none ∧ c.logarithmicDecrement = none) := by
  intro c
  refine ⟨?_, o.frequency, o.rate, o.ratio, o.firstRoot, o.secondRoot, h.naturalFrequency, h.decayRate,
    h.dampingRatio, h.roots_eq.1, h.roots_eq.2, o.isRoot_firstRoot, o.isRoot_secondRoot,
    Spring.roots_of_gt, Spring.roots_of_eq, fun hlt => ?_, fun hle => ?_⟩
  · rw [h.decayRate, h.dampingRatio, h.naturalFrequency, Exact.real_mul, mul_comm, o.frequency_mul_ratio]
  · obtain ⟨omegaD, hpos, hsq, hfrequency, hperiod, hdecrement⟩ := ofRates_of_lt hlt (o.rate_sq_lt hlt)
    rw [← h.ofSystem_eq] at hfrequency hperiod hdecrement
    obtain ⟨h₁, h₂⟩ := Spring.roots_of_lt hlt hpos hsq
    exact ⟨omegaD, _, hfrequency, hperiod, hdecrement, h₁, h₂, hpos, hsq, mul_div_cancel₀ _ hpos.ne'⟩
  · have hnot : ¬(o.ratio < 1 ∧ o.rate ^ 2 < o.frequency ^ 2) := fun hlt => hle.not_gt hlt.1
    have hnone := ofRates_of_not hnot
    rwa [← h.ofSystem_eq] at hnone

theorem Characteristics.ofSystem_describes_ringing :
    let c := ofSystem System.ringing
    Spring.ringing.IsRoot ⟨-1, -2⟩ ∧ Spring.ringing.IsRoot ⟨-1, 2⟩ ∧ c.firstRoot = .exact ⟨-1, -2⟩ ∧
      c.secondRoot = .exact ⟨-1, 2⟩ ∧ c.dampedFrequency = some (.real 2) ∧
      c.dampedPeriod = some (.real Real.pi) ∧ c.logarithmicDecrement = some (.real (1 * Real.pi)) := by
  intro c
  have h := System.ringing_hasConstants
  obtain ⟨-, omega, alpha, zeta, r₁, r₂, hw, ha, hz, h₁, h₂, hroot₁, hroot₂, -, -, hlt, -⟩ :=
    Characteristics.ofSystem_describes h
  obtain rfl : omega = Spring.ringing.frequency := Exact.real.inj (hw.symm.trans h.naturalFrequency)
  obtain rfl : alpha = Spring.ringing.rate := Exact.real.inj (ha.symm.trans h.decayRate)
  obtain rfl : zeta = Spring.ringing.ratio := Exact.real.inj (hz.symm.trans h.dampingRatio)
  obtain ⟨omegaD, period, hfrequency, hperiod, hdecrement, rfl, rfl, hpos, hsq, hturn⟩ :=
    hlt Spring.ringing_ratio_lt
  have halpha : Spring.ringing.rate = 1 := by norm_num [Spring.rate, Spring.ringing]
  obtain rfl : omegaD = 2 := by
    rw [Spring.frequency_sq, halpha] at hsq
    norm_num [Spring.ringing] at hsq
    nlinarith
  obtain rfl : period = Real.pi := by linarith
  rw [halpha] at hroot₁ hroot₂ h₁ h₂ hdecrement
  exact ⟨hroot₁, hroot₂, h₁, h₂, hfrequency, hperiod, hdecrement⟩

end Oscillator
