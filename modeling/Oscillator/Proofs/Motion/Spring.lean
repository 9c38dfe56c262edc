import Oscillator.Characteristics
import Oscillator.Proofs.Exact.Complex
import Oscillator.Proofs.Parameters

/-! # Springs of real numbers

A valid system has real constants, with a positive mass and stiffness and a damping that is not
negative. Its characteristics are then the familiar ones, and the frequency, the decay rate and the
damping ratio are tied together: the rate is the frequency times the ratio.
-/
namespace Oscillator

structure Spring where
  mass : ℝ
  stiffness : ℝ
  damping : ℝ
  mass_pos : 0 < mass
  stiffness_pos : 0 < stiffness
  damping_nonneg : 0 ≤ damping

namespace Spring

variable (o : Spring)

noncomputable def frequency : ℝ := √(o.stiffness / o.mass)

noncomputable def rate : ℝ := o.damping / (2 * o.mass)

noncomputable def ratio : ℝ := o.damping / (2 * √(o.stiffness * o.mass))

theorem frequency_pos : 0 < o.frequency := Real.sqrt_pos.mpr (div_pos o.stiffness_pos o.mass_pos)

theorem frequency_sq : o.frequency ^ 2 = o.stiffness / o.mass :=
  Real.sq_sqrt (div_pos o.stiffness_pos o.mass_pos).le

theorem rate_add_rate : o.rate + o.rate = o.damping / o.mass := by
  have := o.mass_pos.ne'
  rw [rate]
  field_simp
  norm_num

theorem rate_nonneg : 0 ≤ o.rate := by
  have := o.mass_pos
  exact div_nonneg o.damping_nonneg (by positivity)

theorem ratio_nonneg : 0 ≤ o.ratio := div_nonneg o.damping_nonneg (by positivity)

theorem frequency_mul_ratio : o.frequency * o.ratio = o.rate := by
  have hm := Real.sqrt_pos.mpr o.mass_pos
  have hk := Real.sqrt_pos.mpr o.stiffness_pos
  rw [frequency, ratio, rate, Real.sqrt_div' _ o.mass_pos.le, Real.sqrt_mul' _ o.mass_pos.le]
  field_simp
  rw [Real.sq_sqrt o.mass_pos.le, mul_div_cancel_left₀ _ o.mass_pos.ne']

theorem rate_sq_lt (h : o.ratio < 1) : o.rate ^ 2 < o.frequency ^ 2 := by
  refine (sq_lt_sq₀ o.rate_nonneg o.frequency_pos.le).mpr ?_
  rw [← o.frequency_mul_ratio]
  exact mul_lt_of_lt_one_right o.frequency_pos h

end Spring

namespace Characteristics

/-- The roots as complex numbers. Up to critical damping the root of the discriminant is imaginary. -/
theorem roots_exact (omega zeta : ℝ) : roots (Exact.real omega) (Exact.real zeta) =
    (.exact (-(zeta + ComplexNumber.axisSqrt (zeta ^ 2 - 1)) * omega),
      .exact (-(zeta - ComplexNumber.axisSqrt (zeta ^ 2 - 1)) * omega)) := by
  have hzeta : (⟨.real zeta, 0⟩ : ComplexNumber Exact) = .exact zeta := by simp [ComplexNumber.exact]
  have hdiscriminant :
      (ComplexNumber.exact (zeta * zeta)).subReal 1 = .exact ((zeta ^ 2 - 1 : ℝ) : ℂ) := by
    simp [sq]
  rw [roots, hzeta, ComplexNumber.exact_mul, hdiscriminant, ComplexNumber.exact_sqrtOfReal]
  simp

/-- The real parts of the roots. Up to critical damping the root of the discriminant is imaginary,
and so is the real number zero that stands for it here. -/
theorem roots_re (omega zeta : ℝ) :
    (roots (Exact.real omega) (Exact.real zeta)).1.re = .real (-(zeta + √(zeta ^ 2 - 1)) * omega) ∧
      (roots (Exact.real omega) (Exact.real zeta)).2.re = .real (-(zeta - √(zeta ^ 2 - 1)) * omega) := by
  simp [roots_exact, ComplexNumber.exact, ComplexNumber.axisSqrt]

section

variable {omega alpha zeta : ℝ}

/-- A damped oscillation is derived below critical damping, if its frequency is a real number. -/
theorem ofRates_of_lt (hz : zeta < 1) (hw : alpha ^ 2 < omega ^ 2) :
    let c := ofRates (Exact.real omega) (.real alpha) (.real zeta) none
    ∃ omegaD : ℝ, 0 < omegaD ∧ omegaD ^ 2 = omega ^ 2 - alpha ^ 2 ∧
      c.dampedFrequency = some (.real omegaD) ∧
      c.dampedPeriod = some (.real (2 * Real.pi / omegaD)) ∧
      c.logarithmicDecrement = some (.real (alpha * (2 * Real.pi / omegaD))) := by
  have hpos : 0 < omega * omega - alpha * alpha := by linarith
  have hroot : 0 < √(omega * omega - alpha * alpha) := Real.sqrt_pos.mpr hpos
  refine ⟨√(omega * omega - alpha * alpha), hroot, ?_, ?_⟩
  · rw [Real.sq_sqrt hpos.le]
    ring
  · simp [ofRates, hz, sub_pos.mp hpos, Exact.sqrt_real hpos.le, Exact.real_div hroot.ne']

theorem ofRates_of_not (h : ¬(zeta < 1 ∧ alpha ^ 2 < omega ^ 2)) :
    let c := ofRates (Exact.real omega) (.real alpha) (.real zeta) none
    c.dampedFrequency = none ∧ c.dampedPeriod = none ∧ c.logarithmicDecrement = none := by
  have hsquared : ¬(zeta < 1 ∧ alpha * alpha < omega * omega) := by rwa [← sq, ← sq]
  simp [ofRates, hsquared]

end

end Characteristics

/-- The constants of a system are those of a spring. -/
structure System.HasConstants (s : System Exact) (o : Spring) : Prop where
  mass : s.mass = .real o.mass
  stiffness : s.stiffness = .real o.stiffness
  damping : s.damping = .real o.damping

theorem System.IsValid.exists_spring {s : System Exact} (h : s.IsValid) : ∃ o, s.HasConstants o := by
  obtain ⟨⟨hm, hm'⟩, ⟨hk, hk'⟩, hd, hd'⟩ := h
  obtain ⟨m, hm⟩ := Exact.isFinite_iff.mp hm
  obtain ⟨k, hk⟩ := Exact.isFinite_iff.mp hk
  obtain ⟨d, hd⟩ := Exact.isFinite_iff.mp hd
  simp only [hm, hk, hd, Exact.ofNat_eq, Exact.real_lt, Exact.real_le, Nat.cast_zero] at hm' hk' hd'
  exact ⟨⟨m, k, d, hm', hk', hd'⟩, hm, hk, hd⟩

namespace System.HasConstants

open Characteristics

variable {s : System Exact} {o : Spring} (h : s.HasConstants o)
include h

theorem unique {o' : Spring} (h' : s.HasConstants o') : o = o' := by
  cases o
  cases o'
  cases h.mass.symm.trans h'.mass
  cases h.stiffness.symm.trans h'.stiffness
  cases h.damping.symm.trans h'.damping
  rfl

theorem ofSystem_eq :
    ofSystem s = ofRates (.real o.frequency) (.real o.rate) (.real o.ratio) none := by
  have hm := o.mass_pos
  have hk := o.stiffness_pos
  have hw : Arithmetic.sqrt (s.stiffness / s.mass) = .real o.frequency := by
    rw [h.mass, h.stiffness, Exact.real_div hm.ne', Exact.sqrt_real (div_pos hk hm).le, Spring.frequency]
  have ha : s.damping / (2 * s.mass) = .real o.rate := by
    rw [h.mass, h.damping, Exact.ofNat_eq, Exact.real_mul, Exact.real_div (by positivity)]
    rfl
  have hz : s.damping / (2 * Arithmetic.sqrt (s.stiffness * s.mass)) = .real o.ratio := by
    rw [h.mass, h.stiffness, h.damping, Exact.real_mul, Exact.sqrt_real (mul_pos hk hm).le,
      Exact.ofNat_eq, Exact.real_mul, Exact.real_div (by positivity)]
    rfl
  rw [ofSystem, hw, ha, hz]

theorem naturalFrequency : (ofSystem s).naturalFrequency = .real o.frequency := by
  rw [h.ofSystem_eq]; rfl

theorem decayRate : (ofSystem s).decayRate = .real o.rate := by rw [h.ofSystem_eq]; rfl

theorem dampingRatio : (ofSystem s).dampingRatio = .real o.ratio := by rw [h.ofSystem_eq]; rfl

/-- A damped frequency is only computed below critical damping, where its square is positive. -/
theorem of_dampedFrequency {omegaD : ℝ} (hd : (ofSystem s).dampedFrequency = some (.real omegaD)) :
    o.ratio < 1 ∧ omegaD ^ 2 = o.frequency ^ 2 - o.rate ^ 2 := by
  rw [h.ofSystem_eq] at hd
  by_cases hlt : o.ratio < 1 ∧ o.rate ^ 2 < o.frequency ^ 2
  · obtain ⟨_, -, hsq, hw, -⟩ := ofRates_of_lt hlt.1 hlt.2
    cases hw.symm.trans hd
    exact ⟨hlt.1, hsq⟩
  · cases (ofRates_of_not hlt).1.symm.trans hd

/-- Below critical damping there always is a damped frequency. -/
theorem exists_dampedFrequency (hr : o.ratio < 1) :
    ∃ omegaD : ℝ, (ofSystem s).dampedFrequency = some (.real omegaD) ∧ 0 < omegaD := by
  obtain ⟨omegaD, hpos, -, hw, -⟩ := ofRates_of_lt hr (o.rate_sq_lt hr)
  rw [h.ofSystem_eq]
  exact ⟨omegaD, hw, hpos⟩

theorem roots_re :
    (ofSystem s).firstRoot.re = .real (-(o.ratio + √(o.ratio ^ 2 - 1)) * o.frequency) ∧
    (ofSystem s).secondRoot.re = .real (-(o.ratio - √(o.ratio ^ 2 - 1)) * o.frequency) := by
  rw [h.ofSystem_eq]
  exact Characteristics.roots_re o.frequency o.ratio

end System.HasConstants

/-! A unit mass on a spring of stiffness 5 with damping 2, let go at 1: below critical damping, with a
damped frequency of 2. -/

def Parameters.ringing : Parameters Exact :=
  ⟨some (.real 1), some (.real 5), some (.real 2), none, some (.real 1),
    some (.real 0), none, none⟩

def Spring.ringing : Spring := ⟨1, 5, 2, by norm_num, by norm_num, by norm_num⟩

theorem Spring.ringing_ratio_lt : Spring.ringing.ratio < 1 := by
  have : (1 : ℝ) < √(5 * 1) := Real.lt_sqrt_of_sq_lt (by norm_num)
  rw [ratio, ringing, div_lt_one (by positivity)]
  linarith

def System.ringing : System Exact := ⟨.real 1, .real 5, .real 2, .real 1, .real 0, none⟩

theorem System.ringing_hasConstants : System.ringing.HasConstants Spring.ringing := ⟨rfl, rfl, rfl⟩

theorem System.ringing_isValid : System.ringing.IsValid := by
  refine ⟨?_, ?_, ?_⟩
  · simp [ringing, Arithmetic.IsPositive]
  · simp [ringing, Arithmetic.IsPositive]
  · simp [ringing, Arithmetic.IsNonnegative]

theorem Parameters.ringing_system? : Parameters.ringing.system? = .ok (some System.ringing) :=
  system?_eq_some_iff.mpr ⟨_, _, _, .physical rfl rfl, System.ringing_isValid, rfl⟩

/-! The same with a force. -/

def Parameters.ringingUnder (force : String) : Parameters Exact := { ringing with force := some force }

def System.ringingUnder (force : String) : System Exact := { ringing with force := some force }

theorem System.ringingUnder_hasConstants (force : String) :
    (System.ringingUnder force).HasConstants Spring.ringing := ⟨rfl, rfl, rfl⟩

theorem Parameters.ringingUnder_system? (force : String) :
    (ringingUnder force).system? = .ok (some (.ringingUnder force)) := by
  obtain ⟨hm, hk, hd⟩ := System.ringing_isValid
  exact system?_eq_some_iff.mpr ⟨_, _, _, .physical rfl rfl, ⟨hm, hk, hd⟩, rfl⟩

/-! A unit mass on a spring of unit stiffness, with any damping. -/

def Spring.unit (damping : ℝ) (h : 0 ≤ damping) : Spring := ⟨1, 1, damping, one_pos, one_pos, h⟩

def System.unit (damping : ℝ) : System Exact := ⟨.real 1, .real 1, .real damping, .real 0, .real 0, none⟩

section

variable {damping : ℝ} (h : 0 ≤ damping)

theorem System.unit_hasConstants : (System.unit damping).HasConstants (Spring.unit damping h) :=
  ⟨rfl, rfl, rfl⟩

theorem Spring.unit_rate : (Spring.unit damping h).rate = damping / 2 := by rw [rate, unit, mul_one]

theorem Spring.unit_ratio : (Spring.unit damping h).ratio = damping / 2 := by
  rw [ratio, unit, mul_one, Real.sqrt_one, mul_one]

end

end Oscillator
