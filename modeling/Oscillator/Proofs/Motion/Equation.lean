import Oscillator.Proofs.Motion.Constants
import Oscillator.Proofs.Motion.Spring
import Oscillator.Proofs.Reading.Literal

/-! # The equation of a system

A motion that is computed without reported properties, in a regime that suits the damping ratio,
satisfies the equation of its system. In every regime the constants of the template have to give
the friction and the elasticity of the spring; the steady state is what makes the drive the forcing.
-/
namespace Oscillator

namespace Harmonic

variable {forcing : Harmonic Exact} {omega alpha : ℝ} {steady : Harmonic ℝ}

theorem steadyState_offset (h : forcing.steadyState (.real omega) (.real alpha) = steady.exact) :
    forcing.offset = .real (omega ^ 2 * steady.offset) := by
  have ho := congrArg Harmonic.offset h
  simp only [steadyState, exact, Exact.real_mul] at ho
  obtain ⟨p, q, hp, hq, hne, hpq⟩ := Exact.div_eq_real.mp ho
  cases hq
  rw [hp, ← hpq, sq, mul_div_cancel₀ _ hne]

theorem rotate_unrotate {d f p q : ℝ} (h : d * d + f * f ≠ 0) :
    d * ((p * d - q * f) / (d * d + f * f)) + f * ((p * f + q * d) / (d * d + f * f)) = p ∧
      d * ((p * f + q * d) / (d * d + f * f)) - f * ((p * d - q * f) / (d * d + f * f)) = q := by
  constructor
  · rw [← mul_div_assoc, ← mul_div_assoc, ← add_div, div_eq_iff h]
    ring
  · rw [← mul_div_assoc, ← mul_div_assoc, ← sub_div, div_eq_iff h]
    ring

/-- The amplitudes solve the linear equations that come of comparing cosines and sines. -/
theorem steadyState_amplitudes (h : forcing.steadyState (.real omega) (.real alpha) = steady.exact) :
    let detuning := omega * omega - steady.frequency * steady.frequency
    let friction := 2 * alpha * steady.frequency
    forcing.cosine = .real (detuning * steady.cosine + friction * steady.sine) ∧
      forcing.sine = .real (detuning * steady.sine - friction * steady.cosine) := by
  intro detuning friction
  have hw : forcing.frequency = .real steady.frequency := congrArg Harmonic.frequency h
  have hc := congrArg Harmonic.cosine h
  have hs := congrArg Harmonic.sine h
  simp only [steadyState, exact, hw, Exact.ofNat_eq, Exact.real_mul, Exact.real_sub, Exact.real_add,
    Nat.cast_zero, Nat.cast_ofNat, Bool.and_eq_true] at hc hs
  split at hc
  case isTrue hstill =>
    -- Without waves to follow the amplitudes are zero, also at resonance.
    rw [if_pos hstill] at hs
    rw [← Exact.real.inj hc, ← Exact.real.inj hs]
    simpa [Exact.beq_real_iff] using hstill
  case isFalse hstill =>
    rw [if_neg hstill] at hs
    obtain ⟨y, den, hy, hden, hne, hyc⟩ := Exact.div_eq_real.mp hc
    obtain ⟨_, _, hyp, hyq, rfl⟩ := Exact.sub_eq_real.mp hy
    obtain ⟨p, _, hp, hd, rfl⟩ := Exact.mul_eq_real.mp hyp
    obtain ⟨q, _, hq, hf, rfl⟩ := Exact.mul_eq_real.mp hyq
    cases hd; cases hf; cases hden
    rw [hp, hq] at hs ⊢
    simp only [Exact.real_mul, Exact.real_add, Exact.real_div hne, Exact.real.injEq] at hs ⊢
    rw [← hyc, ← hs]
    exact ⟨(rotate_unrotate hne).1.symm, (rotate_unrotate hne).2.symm⟩

/-- Off resonance, or with damping, a real forcing has a steady state of finite amplitudes. -/
theorem exists_steadyState (g : Harmonic ℝ) (hw : omega ≠ 0)
    (hoff : omega ^ 2 ≠ g.frequency ^ 2 ∨ alpha * g.frequency ≠ 0) :
    ∃ steady : Harmonic ℝ, g.exact.steadyState (.real omega) (.real alpha) = steady.exact := by
  have hden : (omega * omega - g.frequency * g.frequency) * (omega * omega - g.frequency * g.frequency) +
      2 * alpha * g.frequency * (2 * alpha * g.frequency) ≠ 0 := by
    intro hzero
    obtain ⟨hdetuning, hfriction⟩ := mul_self_add_mul_self_eq_zero.mp hzero
    rcases hoff with hoff | hoff
    · exact hoff (by linarith)
    · exact hoff (by linarith)
  refine eq_exact_of_isFinite ?_
  simp only [isFinite, steadyState, exact, Exact.ofNat_eq, Exact.real_mul, Exact.real_sub, Exact.real_add,
    Exact.real_div hden, Exact.real_div (mul_ne_zero hw hw), Nat.cast_ofNat]
  split <;> simp

/-- The steady state of finite amplitudes is driven by the forcing. -/
theorem exists_wave_of_steadyState
    (h : forcing.steadyState (.real omega) (.real alpha) = steady.exact) :
    ∃ g : Harmonic ℝ, forcing = g.exact ∧
      ∀ t, steady.slope.slope.wave t + 2 * alpha * steady.slope.wave t + omega ^ 2 * steady.wave t =
        g.wave t := by
  have hw : forcing.frequency = .real steady.frequency := congrArg Harmonic.frequency h
  have ho := steadyState_offset h
  obtain ⟨hc, hs⟩ := steadyState_amplitudes h
  obtain ⟨offset, cosine, sine, frequency⟩ := forcing
  simp only at hw ho hc hs
  subst hw ho hc hs
  refine ⟨⟨_, _, _, _⟩, rfl, fun t => ?_⟩
  simp only [wave, slope]
  ring

end Harmonic

section

variable {α : Type} [Arithmetic α]

/-- The regimes that a damping ratio allows; a motion may be forced or not below critical
damping. -/
def System.Suits (s : System α) : Regime → Prop
  | .undamped => s.damping = 0
  | .underdamped | .forced => (Characteristics.ofSystem s).dampingRatio < 1
  | .critical => (Characteristics.ofSystem s).dampingRatio = 1
  | .overdamped => 1 < (Characteristics.ofSystem s).dampingRatio

theorem System.ringing_suits : System.ringing.Suits .underdamped := by
  simpa [System.Suits, System.ringing_hasConstants.dampingRatio] using Spring.ringing_ratio_lt

/-- What drives a system in a regime: only the forced one has a forcing, which is the literal or, if that is
no forcing, the default. -/
def Parametric.driving (regime : Regime) (s : System α) (settings : Settings α) : Signal α :=
  match regime, Forcing.parse (s.force.getD "") with
  | .forced, .ok f => f.value
  | .forced, .error _ => settings.defaultForcing.value
  | _, _ => fun _ => 0

theorem Parametric.driving_forced (s : System α) (settings : Settings α) :
    driving .forced s settings = (forcing s settings).1.value := by
  cases h : Forcing.parse (α := α) (s.force.getD "") <;> simp only [driving, forcing, h]

theorem Parametric.driving_of_parse {s : System α} {f : Harmonic α}
    (h : Forcing.parse (s.force.getD "") = .ok f) (settings : Settings α) :
    driving .forced s settings = f.value := by
  simp only [driving, h]

end

theorem Parametric.driving_draws {regime : Regime} (hr : regime ≠ .forced) (s : System Exact)
    (settings : Settings Exact) : (driving regime s settings).Draws fun _ => 0 := by
  intro t
  cases regime <;> simp_all [driving]

namespace System.HasConstants

variable {s : System Exact} {o : Spring} (h : s.HasConstants o) {k : Coefficients ℝ}
include h

/-- In a regime that suits a system its constants give the friction and the elasticity of the
spring, and the drive is what the system is driven by. -/
theorem constants_equation {regime : Regime} {settings : Settings Exact} {x v : Exact}
    (hr : s.Suits regime)
    (hk : Parametric.constants regime (Characteristics.ofSystem s) x v
      (Parametric.forcing s settings).1 = k.exact) :
    k.friction = o.damping / o.mass ∧ k.elasticity = o.stiffness / o.mass ∧
      (Parametric.driving regime s settings).Draws k.drive := by
  rw [← o.rate_add_rate, ← o.frequency_sq]
  cases regime with
  | undamped =>
    obtain ⟨x₀, v₀, omega, -, -, hw, -, rfl⟩ := Parametric.undamped_eq_exact.mp hk
    cases h.naturalFrequency.symm.trans hw
    have hd : o.damping = 0 := by simpa [Suits, h.damping] using hr
    refine ⟨?_, rfl, Parametric.driving_draws (by simp) s settings⟩
    simp [Coefficients.friction, Spring.rate, hd]
  | underdamped =>
    obtain ⟨x₀, v₀, alpha, omegaD, -, -, ha, hd, -, rfl⟩ := Parametric.underdamped_eq_exact.mp hk
    cases h.decayRate.symm.trans ha
    refine ⟨rfl, ?_, Parametric.driving_draws (by simp) s settings⟩
    simp [Coefficients.elasticity, (h.of_dampedFrequency hd).2]
  | forced =>
    obtain ⟨x₀, v₀, alpha, omegaD, steady, -, -, ha, hd, -, hs, rfl⟩ := Parametric.forced_eq_exact.mp hk
    cases h.decayRate.symm.trans ha
    rw [h.naturalFrequency, h.decayRate] at hs
    obtain ⟨g, hg, hdrive⟩ := Harmonic.exists_wave_of_steadyState hs
    have he : o.rate ^ 2 + omegaD ^ 2 = o.frequency ^ 2 := by simp [(h.of_dampedFrequency hd).2]
    refine ⟨rfl, he, fun t => ?_⟩
    simp only [Parametric.driving_forced, hg, g.draws_wave t, ← hdrive t, Coefficients.drive,
      Coefficients.friction, Coefficients.elasticity, he, ← two_mul]
  | critical =>
    obtain ⟨x₀, v₀, omega, -, -, hw, rfl⟩ := Parametric.critical_eq_exact.mp hk
    cases h.naturalFrequency.symm.trans hw
    have hz : o.ratio = 1 := by simpa [Suits, h.dampingRatio] using hr
    refine ⟨?_, rfl, Parametric.driving_draws (by simp) s settings⟩
    rw [Coefficients.friction, ← o.frequency_mul_ratio, hz, mul_one]
  | overdamped =>
    obtain ⟨x₀, v₀, r1, r2, -, -, h1, h2, -, rfl⟩ := Parametric.overdamped_eq_exact.mp hk
    have hz : 1 < o.ratio := by simpa [Suits, h.dampingRatio] using hr
    cases h.roots_re.1.symm.trans h1
    cases h.roots_re.2.symm.trans h2
    refine ⟨?_, ?_, Parametric.driving_draws (by simp) s settings⟩
    · rw [Coefficients.friction, ← o.frequency_mul_ratio]
      ring
    · have hsq := Real.sq_sqrt (show 0 ≤ o.ratio ^ 2 - 1 by nlinarith)
      rw [Coefficients.elasticity]
      linear_combination -o.frequency ^ 2 * hsq

/-- In a regime that suits a system, a motion from a finite initial state has finite constants, in the
forced one if there is a steady state. -/
theorem exists_constants {regime : Regime} (hr : s.Suits regime) (x₀ v₀ : ℝ) (forcing : Harmonic Exact)
    (hs : regime = .forced → ∃ steady : Harmonic ℝ,
      forcing.steadyState (.real o.frequency) (.real o.rate) = steady.exact) :
    ∃ k : Coefficients ℝ, Parametric.constants regime (Characteristics.ofSystem s) (.real x₀)
      (.real v₀) forcing = k.exact := by
  cases regime with
  | undamped =>
    exact ⟨_, Parametric.undamped_eq_exact.mpr ⟨x₀, v₀, _, rfl, rfl, h.naturalFrequency,
      o.frequency_pos.ne', rfl⟩⟩
  | underdamped =>
    have hz : o.ratio < 1 := by simpa [Suits, h.dampingRatio] using hr
    obtain ⟨omegaD, hd, hpos⟩ := h.exists_dampedFrequency hz
    exact ⟨_, Parametric.underdamped_eq_exact.mpr ⟨x₀, v₀, _, omegaD, rfl, rfl, h.decayRate, hd,
      hpos.ne', rfl⟩⟩
  | forced =>
    have hz : o.ratio < 1 := by simpa [Suits, h.dampingRatio] using hr
    obtain ⟨omegaD, hd, hpos⟩ := h.exists_dampedFrequency hz
    obtain ⟨steady, hs⟩ := hs rfl
    rw [← h.naturalFrequency, ← h.decayRate] at hs
    exact ⟨_, Parametric.forced_eq_exact.mpr ⟨x₀, v₀, _, omegaD, steady, rfl, rfl, h.decayRate, hd,
      hpos.ne', hs, rfl⟩⟩
  | critical =>
    exact ⟨_, Parametric.critical_eq_exact.mpr ⟨x₀, v₀, _, rfl, rfl, h.naturalFrequency, rfl⟩⟩
  | overdamped =>
    have hz : 1 < o.ratio := by simpa [Suits, h.dampingRatio] using hr
    obtain ⟨h1, h2⟩ := h.roots_re
    have hpos : 0 < √(o.ratio ^ 2 - 1) * o.frequency :=
      mul_pos (Real.sqrt_pos.mpr (by nlinarith)) o.frequency_pos
    refine ⟨_, Parametric.overdamped_eq_exact.mpr ⟨x₀, v₀, _, _, rfl, rfl, h1, h2, ?_, rfl⟩⟩
    linarith

/-- So its closed form has a value, and no reference signal is shown. -/
theorem evaluation_failure_eq_none {regime : Regime} {settings : Settings Exact} {reference : Reference}
    {x₀ v₀ : ℝ} (hr : s.Suits regime) (hx : s.initialPosition = .real x₀) (hv : s.initialVelocity = .real v₀)
    (hs : regime = .forced → ∃ steady : Harmonic ℝ,
      (Parametric.forcing s settings).1.steadyState (.real o.frequency) (.real o.rate) = steady.exact) :
    ((Parametric.resolve regime s none settings).coefficients.evaluation regime reference).failure = none := by
  obtain ⟨k, hk⟩ := h.exists_constants hr x₀ v₀ (Parametric.forcing s settings).1 hs
  rw [Coefficients.evaluation_failure, Parametric.resolve_coefficients, hx, hv]
  exact Parametric.failure?_constants hk

end System.HasConstants

/-- Without reported properties and in a regime that suits the system, the closed form satisfies the
equation `x'' + (damping / mass) x' + (stiffness / mass) x = F` of the system wherever it is drawn. -/
theorem unreported_motion_solves {p : Parameters Exact} {s : System Exact} {regime : Regime}
    {settings : Settings Exact} {reference : Reference} (hs : p.system? = .ok (some s))
    (hr : s.Suits regime)
    (he : ((Parametric.resolve regime s none settings).coefficients.evaluation regime
      reference).failure = none) :
    ∃ (o : Spring) (x F : ℝ → ℝ), s.HasConstants o ∧
      ((Parametric.resolve regime s none settings).coefficients.evaluation regime
        reference).signal.value.Draws x ∧
      (Parametric.driving regime s settings).Draws F ∧
      Solves x (o.damping / o.mass) (o.stiffness / o.mass) F := by
  obtain ⟨_, _, _, -, hvalid, -⟩ := Parameters.system?_eq_some_iff.mp hs
  obtain ⟨o, ho⟩ := hvalid.exists_spring
  rw [Coefficients.evaluation_failure] at he
  obtain ⟨k, hk⟩ := Coefficients.eq_exact_of_isFinite (Coefficients.failure?_eq_none_iff.mp he).2.1
  have hconst := hk
  rw [Parametric.resolve_coefficients] at hconst
  obtain ⟨hf, hel, hd⟩ := ho.constants_equation hr hconst
  refine ⟨o, k.motion, k.drive, ho, ?_, hd, ?_⟩
  · rw [Coefficients.evaluation_signal_eq_regime_iff.mpr ⟨he, hk.symm⟩]
    exact k.draws_motion
  · rw [← hf, ← hel]
    exact k.solves_own

/-- The ringing system, let go or driven by a cosine. -/
theorem unreported_motion_solves_ringing :
    (∃ (o : Spring) (x F : ℝ → ℝ), System.ringing.HasConstants o ∧
      ((Parametric.resolve .underdamped System.ringing none .standard).coefficients.evaluation
        .underdamped .cosine).signal.value.Draws x ∧
      (Parametric.driving .underdamped System.ringing .standard).Draws F ∧
      Solves x (o.damping / o.mass) (o.stiffness / o.mass) F) ∧
    ∃ (o : Spring) (x : ℝ → ℝ), (System.ringingUnder "cos(t)").HasConstants o ∧
      ((Parametric.resolve .forced (.ringingUnder "cos(t)") none .standard).coefficients.evaluation
        .forced .cosine).signal.value.Draws x ∧
      Solves x (o.damping / o.mass) (o.stiffness / o.mass) Real.cos := by
  have hr : System.ringing.Suits .underdamped := System.ringing_suits
  constructor
  · exact unreported_motion_solves Parameters.ringing_system? hr
      (System.ringing_hasConstants.evaluation_failure_eq_none hr rfl rfl (by simp))
  · have hliteral : Forcing.parse ((System.ringingUnder "cos(t)").force.getD "") =
        .ok (⟨0, 1, 0, 1⟩ : Harmonic ℝ).exact := Forcing.parse_cosine
    have hdrives : (Parametric.driving .forced (.ringingUnder "cos(t)") .standard).Draws Real.cos := by
      intro t
      rw [Parametric.driving_of_parse hliteral, Harmonic.draws_wave]
      simp [Harmonic.wave]
    have hr : (System.ringingUnder "cos(t)").Suits .forced := hr
    have hs : ∃ steady : Harmonic ℝ, (Parametric.forcing (.ringingUnder "cos(t)") .standard).1.steadyState
        (.real Spring.ringing.frequency) (.real Spring.ringing.rate) = steady.exact := by
      rw [Parametric.forcing_of_parse hliteral]
      exact Harmonic.exists_steadyState _ Spring.ringing.frequency_pos.ne'
        (.inr (by norm_num [Spring.rate, Spring.ringing]))
    obtain ⟨o, x, F, ho, hx, hF, hsolves⟩ := unreported_motion_solves (Parameters.ringingUnder_system? "cos(t)") hr
      ((System.ringingUnder_hasConstants "cos(t)").evaluation_failure_eq_none hr rfl rfl fun _ => hs)
    cases hF.unique hdrives
    exact ⟨o, x, ho, hx, hsolves⟩

end Oscillator
