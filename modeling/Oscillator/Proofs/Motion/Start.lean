import Oscillator.Proofs.Motion.Constants
import Oscillator.Proofs.Motion.Spring

/-! # Initial conditions

A closed form computed from parameters starts at the initial position with the initial velocity.
This needs nothing of the frequencies, rates and roots but that they make the constants finite:
properties that contradict each other, or the system, change the curve but not its start.
-/
namespace Oscillator

/-- A signal that is no reference signal is the closed form of real constants. -/
theorem Resolution.exists_exact {q : Resolution Exact}
    (h : ∀ reference, q.prepare.signal ≠ .reference reference) :
    ∃ k : Coefficients ℝ, q.coefficients = k.exact ∧ q.prepare.signal = .regime k.exact := by
  cases hs : q.prepare.signal with
  | reference reference => exact absurd hs (h reference)
  | regime c =>
    obtain ⟨hf, rfl⟩ := Coefficients.evaluation_signal_eq_regime_iff.mp hs
    obtain ⟨k, hk⟩ := Coefficients.eq_exact_of_isFinite (Coefficients.failure?_eq_none_iff.mp hf).2.1
    exact ⟨k, hk, by rw [hk]⟩

namespace Parametric

section

variable {regime : Regime} {s : System Exact} {properties : Option (Properties Exact)}
  {settings : Settings Exact} {k : Coefficients ℝ}
  (h : (resolve regime s properties settings).coefficients = k.exact)
include h

theorem failure?_resolve :
    (resolve regime s properties settings).coefficients.failure? regime = none := by
  rw [resolve_coefficients] at h ⊢
  exact failure?_constants h

theorem prepare_signal : (resolve regime s properties settings).prepare.signal = .regime k.exact :=
  Coefficients.evaluation_signal_eq_regime_iff.mpr ⟨failure?_resolve h, h.symm⟩

theorem prepare_draws : (resolve regime s properties settings).prepare.value.Draws k.motion := by
  rw [Prepared.value, prepare_signal h]
  exact k.draws_motion

end

/-- Where a closed form starts follows from the choice of its amplitudes alone. -/
theorem constants_start {regime : Regime} {c : Characteristics Exact} {x v : Exact}
    {forcing : Harmonic Exact} {k : Coefficients ℝ} (h : constants regime c x v forcing = k.exact) :
    x = .real (k.motion 0) ∧ v = .real (k.slope.motion 0) := by
  cases regime with
  | undamped =>
    obtain ⟨x₀, v₀, omega, rfl, rfl, -, hne, rfl⟩ := undamped_eq_exact.mp h
    simp [Coefficients.motion, Coefficients.slope, Coefficients.oscillation, mul_div_cancel₀ _ hne]
  | underdamped =>
    obtain ⟨x₀, v₀, alpha, omegaD, rfl, rfl, -, -, hne, rfl⟩ := underdamped_eq_exact.mp h
    simp [Coefficients.motion, Coefficients.slope, Coefficients.oscillation, mul_div_cancel₀ _ hne]
  | forced =>
    obtain ⟨x₀, v₀, alpha, omegaD, steady, rfl, rfl, -, -, hne, -, rfl⟩ := forced_eq_exact.mp h
    simp [Coefficients.motion, Coefficients.slope, Coefficients.oscillation, mul_div_cancel₀ _ hne]
    ring
  | critical =>
    obtain ⟨x₀, v₀, omega, rfl, rfl, -, rfl⟩ := critical_eq_exact.mp h
    simp [Coefficients.motion, Coefficients.slope]
  | overdamped =>
    obtain ⟨x₀, v₀, r1, r2, rfl, rfl, -, -, hne, rfl⟩ := overdamped_eq_exact.mp h
    have hv : r1 * (x₀ - (v₀ - r1 * x₀) / (r2 - r1)) + r2 * ((v₀ - r1 * x₀) / (r2 - r1)) = v₀ := by
      field_simp
      ring
    simp [Coefficients.motion, Coefficients.slope, hv]

end Parametric

/-- Unless a reference signal stands in for it, the signal prepared from parameters starts at the
initial position, and the initial velocity is its derivative there. -/
theorem prepared_starts_at_initial_state {r : Response Exact} {s : System Exact}
    {settings : Settings Exact} {p : Prepared Exact} (hs : r.system? = .ok (some s))
    (hp : r.prepare settings = .ok p) (hc : ∀ reference, p.signal ≠ .reference reference) :
    ∃ (x : ℝ → ℝ) (v₀ : ℝ), p.value.Draws x ∧ HasDerivAt x v₀ 0 ∧
      s.initialPosition = .real (x 0) ∧ s.initialVelocity = .real v₀ := by
  rw [Response.prepare_of_system hs] at hp
  cases hp
  obtain ⟨k, hk, hsignal⟩ := Resolution.exists_exact hc
  rw [Parametric.resolve_coefficients] at hk
  obtain ⟨hx, hv⟩ := Parametric.constants_start hk
  refine ⟨k.motion, k.slope.motion 0, ?_, k.hasDerivAt_motion 0, hx, hv⟩
  simpa only [Prepared.value, hsignal, ClosedForm.value] using k.draws_motion

/-- A solver that finds a damped frequency of 3 where it is 2. -/
def Response.contradicted : Response Exact where
  regime := .underdamped
  solution := none
  equation := none
  parameters := some .ringing
  properties := some ⟨none, some (.real (.real 1)), some (.real (.real 3)), none, none, none⟩
  coefficientLists := none

theorem prepared_starts_at_initial_state_contradicted :
    ∃ (x : ℝ → ℝ) (v₀ : ℝ),
      (Parametric.resolve .underdamped .ringing Response.contradicted.properties
        .standard).prepare.value.Draws x ∧
      HasDerivAt x v₀ 0 ∧ System.ringing.initialPosition = .real (x 0) ∧
      System.ringing.initialVelocity = .real v₀ := by
  have hs : Response.contradicted.system? = .ok (some System.ringing) := Parameters.ringing_system?
  have hd : ((Characteristics.ofSystem System.ringing).mergedWith
      Response.contradicted.properties).dampedFrequency = some (.real 3) := by
    simp [Characteristics.mergedWith, Response.contradicted, Characteristics.withReported,
      Characteristics.ofRates, Characteristics.positive?, Property.realPart]
  have ha : ((Characteristics.ofSystem System.ringing).mergedWith
      Response.contradicted.properties).decayRate = .real 1 := by
    simp [Characteristics.mergedWith, Response.contradicted, Characteristics.withReported,
      Characteristics.ofRates, Characteristics.nonnegative?, Property.realPart, Option.filter_some]
  have hk : (Parametric.resolve .underdamped .ringing Response.contradicted.properties
      .standard).coefficients = (Coefficients.underdamped 1 ((0 + 1 * 1) / 3) 1 3).exact :=
    Parametric.underdamped_eq_exact.mpr ⟨1, 0, 1, 3, rfl, rfl, ha, hd, by norm_num, rfl⟩
  refine prepared_starts_at_initial_state hs (Response.prepare_of_system hs _) fun reference h => ?_
  cases (Parametric.prepare_signal hk).symm.trans h

end Oscillator
