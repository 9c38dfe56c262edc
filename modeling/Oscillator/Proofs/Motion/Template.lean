import Mathlib
import Oscillator.ClosedForm
import Oscillator.Proofs.Exact.Numbers

/-! # Closed forms as functions of real time

With real constants a closed form draws a smooth function of time. The derivative of such a function
has the form of the same regime, with other amplitudes, and so each regime has one linear equation
of second order that all its motions satisfy.
-/
namespace Oscillator

/-- At every real time the signal has the value of a real function. -/
def Signal.Draws (f : Signal Exact) (x : ℝ → ℝ) : Prop := ∀ t, f (.real t) = .real (x t)

theorem Signal.Draws.unique {f : Signal Exact} {x y : ℝ → ℝ} (hx : f.Draws x) (hy : f.Draws y) :
    x = y := by
  funext t
  exact Exact.real.inj ((hx t).symm.trans (hy t))

/-- The motion `x` satisfies `x'' + a x' + b x = F` at every time. -/
def Solves (x : ℝ → ℝ) (a b : ℝ) (F : ℝ → ℝ) : Prop :=
  ∃ v w : ℝ → ℝ, (∀ t, HasDerivAt x (v t) t) ∧ (∀ t, HasDerivAt v (w t) t) ∧
    ∀ t, w t + a * v t + b * x t = F t

namespace Harmonic

def exact (h : Harmonic ℝ) : Harmonic Exact :=
  ⟨.real h.offset, .real h.cosine, .real h.sine, .real h.frequency⟩

/-- The function of real time that real amplitudes and a real frequency stand for. -/
noncomputable def wave (h : Harmonic ℝ) (t : ℝ) : ℝ :=
  h.offset + h.cosine * Real.cos (h.frequency * t) + h.sine * Real.sin (h.frequency * t)

def slope (h : Harmonic ℝ) : Harmonic ℝ :=
  ⟨0, h.frequency * h.sine, -(h.frequency * h.cosine), h.frequency⟩

theorem eq_exact_of_isFinite {h : Harmonic Exact} (hf : h.isFinite = true) :
    ∃ k : Harmonic ℝ, h = k.exact := by
  rcases h with ⟨_ | _, _ | _, _ | _, _ | _⟩ <;> simp [isFinite] at hf
  exact ⟨⟨_, _, _, _⟩, rfl⟩

theorem draws_wave (h : Harmonic ℝ) : Signal.Draws h.exact.value h.wave := by
  intro t
  simp [value, exact, wave]

theorem derivative_exact (h : Harmonic ℝ) (t : ℝ) :
    h.exact.derivative (.real t) = .real (h.slope.wave t) := by
  simp only [derivative, exact, Exact.real_mul, Exact.cos_real, Exact.sin_real, Exact.real_sub,
    wave, slope]
  congr 1
  ring

theorem hasDerivAt_wave (h : Harmonic ℝ) (t : ℝ) : HasDerivAt h.wave (h.slope.wave t) t := by
  have hp : HasDerivAt (fun t => h.frequency * t) h.frequency t := by
    simpa using (hasDerivAt_id t).const_mul h.frequency
  have hd := ((hp.cos.const_mul h.cosine).const_add h.offset).add (hp.sin.const_mul h.sine)
  refine hd.congr_deriv ?_
  simp only [wave, slope]
  ring

end Harmonic

namespace Coefficients

def exact : Coefficients ℝ → Coefficients Exact
  | undamped c1 c2 omega => .undamped (.real c1) (.real c2) (.real omega)
  | underdamped c1 c2 alpha omegaD => .underdamped (.real c1) (.real c2) (.real alpha) (.real omegaD)
  | forced c1 c2 alpha omegaD steady =>
    .forced (.real c1) (.real c2) (.real alpha) (.real omegaD) steady.exact
  | critical c1 c2 rate => .critical (.real c1) (.real c2) (.real rate)
  | overdamped c1 c2 r1 r2 => .overdamped (.real c1) (.real c2) (.real r1) (.real r2)

noncomputable def oscillation (c1 c2 alpha omega t : ℝ) : ℝ :=
  Real.exp (-alpha * t) * (c1 * Real.cos (omega * t) + c2 * Real.sin (omega * t))

/-- The function of real time that real constants stand for. -/
noncomputable def motion : Coefficients ℝ → ℝ → ℝ
  | undamped c1 c2 omega, t => oscillation c1 c2 0 omega t
  | underdamped c1 c2 alpha omegaD, t => oscillation c1 c2 alpha omegaD t
  | forced c1 c2 alpha omegaD steady, t => oscillation c1 c2 alpha omegaD t + steady.wave t
  | critical c1 c2 rate, t => (c1 + c2 * t) * Real.exp (-rate * t)
  | overdamped c1 c2 r1 r2, t => c1 * Real.exp (r1 * t) + c2 * Real.exp (r2 * t)

def slope : Coefficients ℝ → Coefficients ℝ
  | undamped c1 c2 omega => .undamped (omega * c2) (-(omega * c1)) omega
  | underdamped c1 c2 alpha omegaD =>
    .underdamped (omegaD * c2 - alpha * c1) (-(omegaD * c1) - alpha * c2) alpha omegaD
  | forced c1 c2 alpha omegaD steady =>
    .forced (omegaD * c2 - alpha * c1) (-(omegaD * c1) - alpha * c2) alpha omegaD steady.slope
  | critical c1 c2 rate => .critical (c2 - rate * c1) (-(rate * c2)) rate
  | overdamped c1 c2 r1 r2 => .overdamped (r1 * c1) (r2 * c2) r1 r2

theorem eq_exact_of_isFinite {c : Coefficients Exact} (hf : c.isFinite = true) :
    ∃ k : Coefficients ℝ, c = k.exact := by
  cases c with
  | undamped c1 c2 omega =>
    simp only [isFinite, List.all_cons, List.all_nil, Bool.and_eq_true, Exact.isFinite_iff] at hf
    obtain ⟨⟨c1, rfl⟩, ⟨c2, rfl⟩, ⟨omega, rfl⟩, -⟩ := hf
    exact ⟨.undamped c1 c2 omega, rfl⟩
  | underdamped c1 c2 alpha omegaD =>
    simp only [isFinite, List.all_cons, List.all_nil, Bool.and_eq_true, Exact.isFinite_iff] at hf
    obtain ⟨⟨c1, rfl⟩, ⟨c2, rfl⟩, ⟨alpha, rfl⟩, ⟨omegaD, rfl⟩, -⟩ := hf
    exact ⟨.underdamped c1 c2 alpha omegaD, rfl⟩
  | forced c1 c2 alpha omegaD steady =>
    simp only [isFinite, List.all_cons, List.all_nil, Bool.and_eq_true, Exact.isFinite_iff] at hf
    obtain ⟨⟨⟨c1, rfl⟩, ⟨c2, rfl⟩, ⟨alpha, rfl⟩, ⟨omegaD, rfl⟩, -⟩, hs⟩ := hf
    obtain ⟨steady, rfl⟩ := Harmonic.eq_exact_of_isFinite hs
    exact ⟨.forced c1 c2 alpha omegaD steady, rfl⟩
  | critical c1 c2 rate =>
    simp only [isFinite, List.all_cons, List.all_nil, Bool.and_eq_true, Exact.isFinite_iff] at hf
    obtain ⟨⟨c1, rfl⟩, ⟨c2, rfl⟩, ⟨rate, rfl⟩, -⟩ := hf
    exact ⟨.critical c1 c2 rate, rfl⟩
  | overdamped c1 c2 r1 r2 =>
    simp only [isFinite, List.all_cons, List.all_nil, Bool.and_eq_true, Exact.isFinite_iff] at hf
    obtain ⟨⟨c1, rfl⟩, ⟨c2, rfl⟩, ⟨r1, rfl⟩, ⟨r2, rfl⟩, -⟩ := hf
    exact ⟨.overdamped c1 c2 r1 r2, rfl⟩

theorem draws_motion (c : Coefficients ℝ) : Signal.Draws c.exact.value c.motion := by
  intro t
  cases c with
  | forced c1 c2 alpha omegaD steady =>
    simp [exact, value, transient, motion, oscillation, steady.draws_wave t]
  | _ => simp [exact, value, transient, motion, oscillation]

@[simp] theorem regime_exact (c : Coefficients ℝ) : c.exact.regime = c.regime := by cases c <;> rfl

@[simp] theorem isFinite_exact (c : Coefficients ℝ) : c.exact.isFinite = true := by
  cases c <;> simp [exact, isFinite, Harmonic.exact, Harmonic.isFinite]

/-- Real constants make the closed form of their own regime. -/
theorem failure?_exact (c : Coefficients ℝ) : c.exact.failure? c.regime = none := by
  have h : c.exact.value 0 = .real (c.motion 0) := by
    simpa only [Exact.ofNat_eq, Nat.cast_zero] using c.draws_motion 0
  rw [failure?, h]
  simp

theorem hasDerivAt_oscillation (c1 c2 alpha omega t : ℝ) :
    HasDerivAt (oscillation c1 c2 alpha omega)
      (oscillation (omega * c2 - alpha * c1) (-(omega * c1) - alpha * c2) alpha omega t) t := by
  have hp : HasDerivAt (fun t => omega * t) omega t := by
    simpa using (hasDerivAt_id t).const_mul omega
  have he : HasDerivAt (fun t => -alpha * t) (-alpha) t := by
    simpa using (hasDerivAt_id t).const_mul (-alpha)
  refine (he.exp.mul ((hp.cos.const_mul c1).add (hp.sin.const_mul c2))).congr_deriv ?_
  simp only [Pi.add_apply, oscillation]
  ring

theorem hasDerivAt_motion (c : Coefficients ℝ) (t : ℝ) :
    HasDerivAt c.motion (c.slope.motion t) t := by
  cases c with
  | undamped c1 c2 omega =>
    exact (hasDerivAt_oscillation c1 c2 0 omega t).congr_deriv (by simp [slope, motion])
  | underdamped c1 c2 alpha omegaD => exact hasDerivAt_oscillation c1 c2 alpha omegaD t
  | forced c1 c2 alpha omegaD steady =>
    exact (hasDerivAt_oscillation c1 c2 alpha omegaD t).add (steady.hasDerivAt_wave t)
  | critical c1 c2 rate =>
    have he : HasDerivAt (fun t => -rate * t) (-rate) t := by
      simpa using (hasDerivAt_id t).const_mul (-rate)
    have hl : HasDerivAt (fun t => c1 + c2 * t) c2 t := by
      simpa using ((hasDerivAt_id t).const_mul c2).const_add c1
    refine (hl.mul he.exp).congr_deriv ?_
    simp only [slope, motion]
    ring
  | overdamped c1 c2 r1 r2 =>
    have he (r : ℝ) : HasDerivAt (fun t => r * t) r t := by
      simpa using (hasDerivAt_id t).const_mul r
    refine (((he r1).exp.const_mul c1).add ((he r2).exp.const_mul c2)).congr_deriv ?_
    simp only [slope, motion]
    ring

/-! The equation `x'' + friction x' + elasticity x = drive` that belongs to a motion. Amplitudes of
a transient have no part in it. -/

def friction : Coefficients ℝ → ℝ
  | undamped _ _ _ => 0
  | underdamped _ _ alpha _ | forced _ _ alpha _ _ => alpha + alpha
  | critical _ _ rate => rate + rate
  | overdamped _ _ r1 r2 => -(r1 + r2)

def elasticity : Coefficients ℝ → ℝ
  | undamped _ _ omega => omega ^ 2
  | underdamped _ _ alpha omegaD | forced _ _ alpha omegaD _ => alpha ^ 2 + omegaD ^ 2
  | critical _ _ rate => rate ^ 2
  | overdamped _ _ r1 r2 => r1 * r2

/-- What drives the steady part of a motion. -/
noncomputable def drive (c : Coefficients ℝ) (t : ℝ) : ℝ :=
  match c with
  | forced _ _ _ _ steady =>
    steady.slope.slope.wave t + c.friction * steady.slope.wave t + c.elasticity * steady.wave t
  | _ => 0

/-- Every closed form satisfies the equation of its own constants. -/
theorem solves_own (c : Coefficients ℝ) : Solves c.motion c.friction c.elasticity c.drive := by
  refine ⟨c.slope.motion, c.slope.slope.motion, c.hasDerivAt_motion, c.slope.hasDerivAt_motion, ?_⟩
  intro t
  cases c <;> simp only [slope, motion, oscillation, friction, elasticity, drive] <;> ring

end Coefficients

end Oscillator
