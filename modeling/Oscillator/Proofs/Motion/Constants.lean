import Oscillator.Proofs.Motion.Template
import Oscillator.Proofs.Prepared

/-! # Finite constants

The constants computed from parameters, regime by regime: when they are real numbers, and which
ones. Whatever characteristics they are computed from, merged with reported properties or not, a
finite closed form needs the quantities that its template divides by, and no others.
-/
namespace Oscillator.Parametric

variable {c : Characteristics Exact} {x v : Exact} {forcing : Harmonic Exact} {k : Coefficients ℝ}

theorem undamped_eq_exact : undamped c x v = k.exact ↔
    ∃ x₀ v₀ omega : ℝ, x = .real x₀ ∧ v = .real v₀ ∧ c.naturalFrequency = .real omega ∧ omega ≠ 0 ∧
      k = .undamped x₀ (v₀ / omega) omega := by
  constructor
  · intro h
    cases k with
    | undamped c1 c2 omega =>
      simp only [undamped, Coefficients.exact, Coefficients.undamped.injEq] at h
      obtain ⟨rfl, hv, hw⟩ := h
      rw [hw] at hv
      obtain ⟨v₀, w, rfl, hw', hne, rfl⟩ := Exact.div_eq_real.mp hv
      cases hw'
      exact ⟨c1, v₀, omega, rfl, rfl, hw, hne, rfl⟩
    | _ => simp [undamped, Coefficients.exact] at h
  · rintro ⟨x₀, v₀, omega, rfl, rfl, hw, hne, rfl⟩
    simp [undamped, Coefficients.exact, hw, Exact.real_div hne]

theorem underdamped_eq_exact : underdamped c x v = k.exact ↔
    ∃ x₀ v₀ alpha omegaD : ℝ, x = .real x₀ ∧ v = .real v₀ ∧ c.decayRate = .real alpha ∧
      c.dampedFrequency = some (.real omegaD) ∧ omegaD ≠ 0 ∧
      k = .underdamped x₀ ((v₀ + alpha * x₀) / omegaD) alpha omegaD := by
  constructor
  · intro h
    cases k with
    | underdamped c1 c2 alpha omegaD =>
      simp only [underdamped, Coefficients.exact, Coefficients.underdamped.injEq] at h
      obtain ⟨rfl, hv, ha, hw⟩ := h
      have hw' : c.dampedFrequency = some (.real omegaD) := by
        cases hd : c.dampedFrequency <;> simp_all
      rw [hw, ha] at hv
      obtain ⟨y, w, hy, hw'', hne, rfl⟩ := Exact.div_eq_real.mp hv
      cases hw''
      obtain ⟨v₀, z, rfl, hz, rfl⟩ := Exact.add_eq_real.mp hy
      cases hz
      exact ⟨c1, v₀, alpha, omegaD, rfl, rfl, ha, hw', hne, rfl⟩
    | _ => simp [underdamped, Coefficients.exact] at h
  · rintro ⟨x₀, v₀, alpha, omegaD, rfl, rfl, ha, hw, hne, rfl⟩
    simp [underdamped, Coefficients.exact, ha, hw, Exact.real_div hne]

theorem forced_eq_exact : forced c x v forcing = k.exact ↔
    ∃ (x₀ v₀ alpha omegaD : ℝ) (steady : Harmonic ℝ), x = .real x₀ ∧ v = .real v₀ ∧
      c.decayRate = .real alpha ∧ c.dampedFrequency = some (.real omegaD) ∧ omegaD ≠ 0 ∧
      forcing.steadyState c.naturalFrequency c.decayRate = steady.exact ∧
      k = .forced (x₀ - steady.wave 0)
        ((v₀ + alpha * (x₀ - steady.wave 0) - steady.slope.wave 0) / omegaD) alpha omegaD steady := by
  constructor
  · intro h
    cases k with
    | forced c1 c2 alpha omegaD steady =>
      simp only [forced, Coefficients.exact, Coefficients.forced.injEq] at h
      obtain ⟨hx, hv, ha, hw, hs⟩ := h
      have hw' : c.dampedFrequency = some (.real omegaD) := by
        cases hd : c.dampedFrequency <;> simp_all
      simp only [hs, Exact.ofNat_eq, Nat.cast_zero, steady.draws_wave 0, steady.derivative_exact] at hx hv
      obtain ⟨x₀, y, rfl, hy, rfl⟩ := Exact.sub_eq_real.mp hx
      cases hy
      rw [hw, ha] at hv
      obtain ⟨y, w, hy, hw'', hne, rfl⟩ := Exact.div_eq_real.mp hv
      cases hw''
      obtain ⟨z, s, hz, hs', rfl⟩ := Exact.sub_eq_real.mp hy
      cases hs'
      obtain ⟨v₀, u, rfl, hu, rfl⟩ := Exact.add_eq_real.mp hz
      cases hu
      exact ⟨x₀, v₀, alpha, omegaD, steady, rfl, rfl, ha, hw', hne, hs, rfl⟩
    | _ => simp [forced, Coefficients.exact] at h
  · rintro ⟨x₀, v₀, alpha, omegaD, steady, rfl, rfl, ha, hw, hne, hs, rfl⟩
    simp only [forced, hs]
    simp only [Exact.ofNat_eq, Nat.cast_zero, steady.draws_wave 0, steady.derivative_exact, ha, hw,
      Option.getD_some, Exact.real_sub, Exact.real_mul, Exact.real_add, Exact.real_div hne,
      Coefficients.exact]

theorem critical_eq_exact : critical c x v = k.exact ↔
    ∃ x₀ v₀ omega : ℝ, x = .real x₀ ∧ v = .real v₀ ∧ c.naturalFrequency = .real omega ∧
      k = .critical x₀ (v₀ + omega * x₀) omega := by
  constructor
  · intro h
    cases k with
    | critical c1 c2 rate =>
      simp only [critical, Coefficients.exact, Coefficients.critical.injEq] at h
      obtain ⟨rfl, hv, hw⟩ := h
      rw [hw] at hv
      obtain ⟨v₀, y, rfl, hy, rfl⟩ := Exact.add_eq_real.mp hv
      cases hy
      exact ⟨c1, v₀, rate, rfl, rfl, hw, rfl⟩
    | _ => simp [critical, Coefficients.exact] at h
  · rintro ⟨x₀, v₀, omega, rfl, rfl, hw, rfl⟩
    simp [critical, Coefficients.exact, hw]

theorem overdamped_eq_exact : overdamped c x v = k.exact ↔
    ∃ x₀ v₀ r1 r2 : ℝ, x = .real x₀ ∧ v = .real v₀ ∧ c.firstRoot.re = .real r1 ∧
      c.secondRoot.re = .real r2 ∧ r2 - r1 ≠ 0 ∧
      k = .overdamped (x₀ - (v₀ - r1 * x₀) / (r2 - r1)) ((v₀ - r1 * x₀) / (r2 - r1)) r1 r2 := by
  constructor
  · intro h
    cases k with
    | overdamped c1 c2 r1 r2 =>
      simp only [overdamped, Coefficients.exact, Coefficients.overdamped.injEq] at h
      obtain ⟨hx, hv, h1, h2⟩ := h
      rw [hv] at hx
      obtain ⟨x₀, y, rfl, hy, rfl⟩ := Exact.sub_eq_real.mp hx
      cases hy
      rw [h1, h2] at hv
      obtain ⟨y, w, hy, hw, hne, rfl⟩ := Exact.div_eq_real.mp hv
      cases hw
      obtain ⟨v₀, z, rfl, hz, rfl⟩ := Exact.sub_eq_real.mp hy
      cases hz
      exact ⟨x₀, v₀, r1, r2, rfl, rfl, h1, h2, hne, rfl⟩
    | _ => simp [overdamped, Coefficients.exact] at h
  · rintro ⟨x₀, v₀, r1, r2, rfl, rfl, h1, h2, hne, rfl⟩
    simp [overdamped, Coefficients.exact, h1, h2, Exact.real_div hne]

theorem failure?_constants {regime : Regime} (h : constants regime c x v forcing = k.exact) :
    (constants regime c x v forcing).failure? regime = none := by
  have hr : k.regime = regime := by rw [← k.regime_exact, ← h, regime_constants]
  rw [h, ← hr, k.failure?_exact]

end Oscillator.Parametric
