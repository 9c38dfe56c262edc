import Oscillator.Proofs.Motion.Equation
import Oscillator.Proofs.Motion.Start

/-! # Agreement with the parameters

A plot from parameters that is not marked as approximate shows the closed form of the named regime,
and that form satisfies the equation of its own constants. Nobody compares this equation with the
one of the parameters: a regime that does not suit them, a property that contradicts them or a
literal that the regime does not read can lead to another equation without a report. The two are the
same equation exactly where the curve is right from every initial state, and without reported
properties exactly where the regime suits the parameters and leaves no forcing unread.
-/
namespace Oscillator

section

variable {α : Type} [Arithmetic α]

/-- The forcing that the parameters speak of, whether or not a regime reads it. -/
def System.literalForce (s : System α) : Signal α :=
  match Forcing.parse (s.force.getD "") with
  | .ok f => f.value
  | .error _ => fun _ => 0

theorem System.literalForce_of_parse {s : System α} {f : Harmonic α}
    (h : Forcing.parse (s.force.getD "") = .ok f) : s.literalForce = f.value := by
  simp only [literalForce, h]

theorem Response.system?_isValid {r : Response α} {s : System α} (h : r.system? = .ok (some s)) :
    s.IsValid := by
  cases hp : r.parameters with
  | none => simp [system?, hp] at h
  | some p =>
    rw [system?, hp] at h
    obtain ⟨_, _, _, -, hvalid, -⟩ := Parameters.system?_eq_some_iff.mp h
    exact hvalid

theorem Forcing.parse_empty : Forcing.parse (α := α) "" = .error (.unreadable .empty) := by
  simp [parse, Expr.parse, Token.ofText, Expr.ofTokens, Except.mapError, bind, Except.bind]

def System.startedAt (s : System α) (x v : α) : System α :=
  { s with initialPosition := x, initialVelocity := v }

def Response.startedAt (r : Response α) (x v : α) : Response α :=
  { r with parameters := r.parameters.map fun p =>
      { p with initialPosition := some x, initialVelocity := some v } }

theorem Response.startedAt_system? {r : Response α} {s : System α}
    (h : r.system? = .ok (some s)) (x v : α) :
    (r.startedAt x v).system? = .ok (some (s.startedAt x v)) := by
  obtain ⟨regime, solution, equation, parameters, properties, lists⟩ := r
  cases parameters with
  | none => simp [system?] at h
  | some p =>
    obtain ⟨mass, stiffness, damping, hg, hvalid, rfl⟩ := Parameters.system?_eq_some_iff.mp h
    refine Parameters.system?_eq_some_iff.mpr ⟨mass, stiffness, damping, ?_,
      ⟨hvalid.mass, hvalid.stiffness, hvalid.damping⟩, rfl⟩
    cases hg with
    | physical hm hk => exact .physical hm hk
    | normalized hm hk hw hb => exact .normalized hm hk hw hb

theorem Parametric.resolve_startedAt (settings : Settings α) {regime : Regime} {s : System α}
    {x v : α} {properties : Option (Properties α)} :
    (resolve regime (s.startedAt x v) properties settings).coefficients =
      constants regime ((Characteristics.ofSystem s).mergedWith properties) x v (forcing s settings).1 :=
  resolve_coefficients ..

/-- A plot from parameters is exact as long as its constants make the closed form and, in the forced
regime, the literal is a forcing. -/
theorem Parametric.isApproximate_eq_false_iff {regime : Regime} {s : System α}
    {properties : Option (Properties α)} {settings : Settings α} :
    (resolve regime s properties settings).prepare.isApproximate = false ↔
      (regime = .forced → ∃ f : Harmonic α, Forcing.parse (s.force.getD "") = .ok f) ∧
        (resolve regime s properties settings).coefficients.failure? regime = none := by
  have hd : (forcing s settings).2.any (·.affectsCurve) = false ↔
      ∃ f : Harmonic α, Forcing.parse (s.force.getD "") = .ok f := by
    cases h : Forcing.parse (α := α) (s.force.getD "") <;> simp [forcing, h, Degradation.affectsCurve]
  have hf (failure : Option FormFailure) :
      (failure.map (Degradation.evaluationFailure (α := α))).toList.any (·.affectsCurve) = false ↔
        failure = none := by
    cases failure <;> simp [Degradation.affectsCurve]
  simp only [Prepared.isApproximate, Resolution.prepare, resolve_mode, Mode.isApproximate, resolve_degradations,
    Coefficients.evaluation_failure, List.any_append, Bool.or_eq_false_iff, hf,
    resolve_regime]
  by_cases hr : regime = .forced
  · simp [hr, hd]
  · simp [hr]

end

theorem Solves.sub {x : ℝ → ℝ} {a b a' b' : ℝ} {F F' : ℝ → ℝ} (h : Solves x a b F)
    (h' : Solves x a' b' F') {v : ℝ} {t : ℝ} (hv : HasDerivAt x v t) :
    (a - a') * v + (b - b') * x t = F t - F' t := by
  obtain ⟨y, z, hy, hz, he⟩ := h
  obtain ⟨y', z', hy', hz', he'⟩ := h'
  have hyy : y = y' := funext fun t => (hy t).unique (hy' t)
  subst hyy
  have hw := (hz t).unique (hz' t)
  have hv' := (hy t).unique hv
  have h1 := he t
  have h2 := he' t
  rw [hv', hw] at h1
  rw [hv'] at h2
  linarith

namespace Parametric

/-- The initial state decides on the amplitudes of a motion and on nothing else. -/
theorem exists_constants_startedAt {regime : Regime} {c : Characteristics Exact} {x v : Exact}
    {forcing : Harmonic Exact} {k : Coefficients ℝ} (h : constants regime c x v forcing = k.exact)
    (x₀ v₀ : ℝ) :
    ∃ k' : Coefficients ℝ, constants regime c (.real x₀) (.real v₀) forcing = k'.exact ∧
      k'.friction = k.friction ∧ k'.elasticity = k.elasticity ∧ k'.drive = k.drive := by
  cases regime with
  | undamped =>
    obtain ⟨_, _, omega, -, -, hw, hne, rfl⟩ := undamped_eq_exact.mp h
    exact ⟨_, undamped_eq_exact.mpr ⟨x₀, v₀, omega, rfl, rfl, hw, hne, rfl⟩, rfl, rfl, rfl⟩
  | underdamped =>
    obtain ⟨_, _, alpha, omegaD, -, -, ha, hd, hne, rfl⟩ := underdamped_eq_exact.mp h
    exact ⟨_, underdamped_eq_exact.mpr ⟨x₀, v₀, alpha, omegaD, rfl, rfl, ha, hd, hne, rfl⟩, rfl, rfl,
      rfl⟩
  | forced =>
    obtain ⟨_, _, alpha, omegaD, steady, -, -, ha, hd, hne, hs, rfl⟩ := forced_eq_exact.mp h
    exact ⟨_, forced_eq_exact.mpr ⟨x₀, v₀, alpha, omegaD, steady, rfl, rfl, ha, hd, hne, hs, rfl⟩, rfl,
      rfl, rfl⟩
  | critical =>
    obtain ⟨_, _, omega, -, -, hw, rfl⟩ := critical_eq_exact.mp h
    exact ⟨_, critical_eq_exact.mpr ⟨x₀, v₀, omega, rfl, rfl, hw, rfl⟩, rfl, rfl, rfl⟩
  | overdamped =>
    obtain ⟨_, _, r1, r2, -, -, h1, h2, hne, rfl⟩ := overdamped_eq_exact.mp h
    exact ⟨_, overdamped_eq_exact.mpr ⟨x₀, v₀, r1, r2, rfl, rfl, h1, h2, hne, rfl⟩, rfl, rfl, rfl⟩

end Parametric

namespace System

/-- The signal satisfies the equation of the parameters under the forcing they speak of. -/
def IsFollowedBy (s : System Exact) (f : Signal Exact) : Prop :=
  ∃ (o : Spring) (x F : ℝ → ℝ), s.HasConstants o ∧ f.Draws x ∧ s.literalForce.Draws F ∧
    Solves x (o.damping / o.mass) (o.stiffness / o.mass) F

/-- The equation of a closed form is the one of the parameters. -/
def HasEquationOf (s : System Exact) (k : Coefficients ℝ) : Prop :=
  ∃ o : Spring, s.HasConstants o ∧ k.friction = o.damping / o.mass ∧
    k.elasticity = o.stiffness / o.mass ∧ s.literalForce.Draws k.drive

variable {s : System Exact} {k : Coefficients ℝ} {f : Signal Exact}

theorem HasEquationOf.isFollowedBy (h : s.HasEquationOf k) (hf : f.Draws k.motion) :
    s.IsFollowedBy f := by
  obtain ⟨o, ho, ha, hb, hF⟩ := h
  refine ⟨o, k.motion, k.drive, ho, hf, hF, ?_⟩
  rw [← ha, ← hb]
  exact k.solves_own

/-- If every initial state leads to a motion of the parameters' equation, the equations are the same:
compared at time zero, where position and velocity are arbitrary, they agree in their
coefficients, and then so do their right sides. -/
theorem hasEquationOf_of_forall {regime : Regime} {c : Characteristics Exact} {x v : Exact}
    {forcing : Harmonic Exact} (hk : Parametric.constants regime c x v forcing = k.exact)
    (hall : ∀ (x₀ v₀ : ℝ) (k' : Coefficients ℝ),
      Parametric.constants regime c (.real x₀) (.real v₀) forcing = k'.exact →
        ∃ f : Signal Exact, f.Draws k'.motion ∧ s.IsFollowedBy f) : s.HasEquationOf k := by
  have hstart (x₀ v₀ : ℝ) : ∃ (o : Spring) (F : ℝ → ℝ) (k' : Coefficients ℝ), s.HasConstants o ∧
      s.literalForce.Draws F ∧ k'.motion 0 = x₀ ∧ k'.slope.motion 0 = v₀ ∧
      Solves k'.motion (o.damping / o.mass) (o.stiffness / o.mass) F ∧
      Solves k'.motion k.friction k.elasticity k.drive := by
    obtain ⟨k', hk', ha, hb, hd⟩ := Parametric.exists_constants_startedAt hk x₀ v₀
    obtain ⟨hx, hv⟩ := Parametric.constants_start hk'
    obtain ⟨f, hf, o, y, F, ho, hy, hF, hs⟩ := hall x₀ v₀ k' hk'
    cases hy.unique hf
    refine ⟨o, F, k', ho, hF, (Exact.real.inj hx).symm, (Exact.real.inj hv).symm, hs, ?_⟩
    rw [← ha, ← hb, ← hd]
    exact k'.solves_own
  obtain ⟨o, F, k₀, ho, hF, -, -, hs, hown⟩ := hstart 0 0
  have hzero (x₀ v₀ : ℝ) : (o.damping / o.mass - k.friction) * v₀ +
      (o.stiffness / o.mass - k.elasticity) * x₀ = F 0 - k.drive 0 := by
    obtain ⟨o', F', k', ho', hF', rfl, rfl, hs, hown⟩ := hstart x₀ v₀
    cases ho.unique ho'
    cases hF.unique hF'
    exact hs.sub hown (k'.hasDerivAt_motion 0)
  have h00 := hzero 0 0
  have h01 := hzero 0 1
  have h10 := hzero 1 0
  have ha : k.friction = o.damping / o.mass := by linarith
  have hb : k.elasticity = o.stiffness / o.mass := by linarith
  refine ⟨o, ho, ha, hb, fun t => ?_⟩
  have ht := hs.sub hown (k₀.hasDerivAt_motion t)
  rw [ha, hb, sub_self, sub_self, zero_mul, zero_mul, add_zero] at ht
  rw [hF t, sub_eq_zero.mp ht.symm]

/-- Without reported properties, in a regime that suits the system and reads the literal if there is
a force, the equations are the same. -/
theorem HasConstants.hasEquationOf {o : Spring} (h : s.HasConstants o) {regime : Regime}
    {settings : Settings Exact} {x v : Exact} (hr : s.Suits regime)
    (hk : Parametric.constants regime (Characteristics.ofSystem s) x v
      (Parametric.forcing s settings).1 = k.exact)
    (hread : regime = .forced → ∃ f : Harmonic Exact, Forcing.parse (s.force.getD "") = .ok f)
    (hunread : regime ≠ .forced → s.literalForce.Draws fun _ => 0) : s.HasEquationOf k := by
  obtain ⟨ha, hb, hd⟩ := h.constants_equation hr hk
  refine ⟨o, h, ha, hb, ?_⟩
  by_cases hf : regime = .forced
  · obtain ⟨f, hparse⟩ := hread hf
    subst hf
    simpa only [Parametric.driving_of_parse hparse, literalForce_of_parse hparse] using hd
  · rw [hd.unique (Parametric.driving_draws hf s settings)]
    exact hunread hf

/-- A regime whose constants give the friction of the spring suits the system. The underdamped and the
overdamped template already tell it by what they divide by. -/
theorem HasConstants.suits {o : Spring} (h : s.HasConstants o) {regime : Regime} {x v : Exact}
    {forcing : Harmonic Exact}
    (hk : Parametric.constants regime (Characteristics.ofSystem s) x v forcing = k.exact)
    (hf : k.friction = o.damping / o.mass) : s.Suits regime := by
  cases regime with
  | undamped =>
    obtain ⟨x₀, v₀, omega, -, -, -, -, rfl⟩ := Parametric.undamped_eq_exact.mp hk
    have hzero : o.damping = 0 := (div_eq_zero_iff.mp hf.symm).resolve_right o.mass_pos.ne'
    simp [Suits, h.damping, hzero]
  | underdamped =>
    obtain ⟨x₀, v₀, alpha, omegaD, -, -, -, hd, -, rfl⟩ := Parametric.underdamped_eq_exact.mp hk
    simpa [Suits, h.dampingRatio] using (h.of_dampedFrequency hd).1
  | forced =>
    obtain ⟨x₀, v₀, alpha, omegaD, steady, -, -, -, hd, -, -, rfl⟩ := Parametric.forced_eq_exact.mp hk
    simpa [Suits, h.dampingRatio] using (h.of_dampedFrequency hd).1
  | critical =>
    obtain ⟨x₀, v₀, omega, -, -, hw, rfl⟩ := Parametric.critical_eq_exact.mp hk
    cases h.naturalFrequency.symm.trans hw
    rw [← o.rate_add_rate, ← o.frequency_mul_ratio] at hf
    have hone : o.frequency * (o.ratio - 1) = 0 := by
      change o.frequency + o.frequency = _ at hf
      linarith
    have hratio : o.ratio = 1 := sub_eq_zero.mp ((mul_eq_zero.mp hone).resolve_left o.frequency_pos.ne')
    simpa [Suits, h.dampingRatio] using hratio
  | overdamped =>
    obtain ⟨x₀, v₀, r1, r2, -, -, h1, h2, hne, rfl⟩ := Parametric.overdamped_eq_exact.mp hk
    cases h.roots_re.1.symm.trans h1
    cases h.roots_re.2.symm.trans h2
    have hratio : 1 < o.ratio := by
      by_contra hle
      have hroot : √(o.ratio ^ 2 - 1) = 0 := Real.sqrt_eq_zero_of_nonpos (by nlinarith [o.ratio_nonneg])
      simp [hroot] at hne
    simpa [Suits, h.dampingRatio] using hratio

end System

theorem Coefficients.drive_eq_zero {k : Coefficients ℝ} (h : k.regime ≠ .forced) :
    k.drive = fun _ => 0 := by
  cases k with
  | forced => exact absurd rfl h
  | _ => rfl

/-- A plot from parameters that is not marked as approximate shows the closed form of the response's
regime. From every initial state it satisfies the equation of the parameters exactly where this is the
equation of the form's own constants, and if no properties are reported these are the same just where the
regime suits the damping ratio and no forcing is left unread. -/
theorem unapproximated_followed_iff {r : Response Exact} {s : System Exact}
    {settings : Settings Exact} {p : Prepared Exact} (hs : r.system? = .ok (some s))
    (hp : r.prepare settings = .ok p) (ha : p.isApproximate = false) :
    ∃ k : Coefficients ℝ, p.signal = .regime k.exact ∧ k.regime = r.regime ∧ p.value.Draws k.motion ∧
      (s.HasEquationOf k → s.IsFollowedBy p.value) ∧
      (s.HasEquationOf k ↔ ∀ x₀ v₀ : ℝ, ∃ p' : Prepared Exact,
        (r.startedAt (.real x₀) (.real v₀)).prepare settings = .ok p' ∧
        p'.isApproximate = false ∧ s.IsFollowedBy p'.value) ∧
      (r.properties = none → (s.HasEquationOf k ↔ s.Suits r.regime ∧
        (r.regime ≠ .forced → s.literalForce.Draws fun _ => 0))) := by
  rw [Response.prepare_of_system hs] at hp
  cases hp
  obtain ⟨hread, hfailure⟩ := Parametric.isApproximate_eq_false_iff.mp ha
  obtain ⟨k, hk⟩ :=
    Coefficients.eq_exact_of_isFinite (Coefficients.failure?_eq_none_iff.mp hfailure).2.1
  have hsignal := Parametric.prepare_signal hk
  have hdraws := Parametric.prepare_draws hk
  have hconst := hk
  rw [Parametric.resolve_coefficients] at hconst
  have hregime : k.regime = r.regime := by rw [← k.regime_exact, ← hconst, Parametric.regime_constants]
  refine ⟨k, hsignal, hregime, hdraws, fun h => h.isFollowedBy hdraws, ⟨?_, ?_⟩, fun hp => ⟨?_, ?_⟩⟩
  · rintro ⟨o, ho, hf, he, hd⟩ x₀ v₀
    obtain ⟨k', hk', hf', he', hd'⟩ := Parametric.exists_constants_startedAt hconst x₀ v₀
    have hc := (Parametric.resolve_startedAt settings).trans hk'
    have heq : s.HasEquationOf k' := ⟨o, ho, hf' ▸ hf, he' ▸ he, hd' ▸ hd⟩
    exact ⟨_, Response.prepare_of_system (Response.startedAt_system? hs _ _) settings,
      Parametric.isApproximate_eq_false_iff.mpr ⟨hread, Parametric.failure?_resolve hc⟩,
      heq.isFollowedBy (Parametric.prepare_draws hc)⟩
  · intro hall
    refine System.hasEquationOf_of_forall hconst fun x₀ v₀ k' hk' => ?_
    obtain ⟨p', hp', -, hfollowed⟩ := hall x₀ v₀
    rw [Response.prepare_of_system (Response.startedAt_system? hs _ _)] at hp'
    cases hp'
    exact ⟨_, Parametric.prepare_draws ((Parametric.resolve_startedAt settings).trans hk'), hfollowed⟩
  · rintro ⟨o, ho, hf, -, hd⟩
    rw [hp] at hconst
    refine ⟨ho.suits hconst hf, fun hr => ?_⟩
    rwa [Coefficients.drive_eq_zero (by rwa [hregime])] at hd
  · rintro ⟨hr, hunread⟩
    obtain ⟨o, ho⟩ := (Response.system?_isValid hs).exists_spring
    rw [hp] at hconst
    exact ho.hasEquationOf hr hconst hread hunread

/-- The ringing system, under a regime that a solver may name. -/
def Response.ringing (regime : Regime) : Response Exact :=
  ⟨regime, none, none, some .ringing, none, none⟩

theorem Response.ringing_system? (regime : Regime) :
    (Response.ringing regime).system? = .ok (some System.ringing) := Parameters.ringing_system?

theorem System.ringing_literalForce : System.ringing.literalForce.Draws fun _ => 0 := by
  intro t
  simp [literalForce, ringing, Forcing.parse_empty]

theorem unapproximated_followed_iff_ringing :
    System.ringing.IsFollowedBy
      (Parametric.resolve .underdamped .ringing none .standard).prepare.value := by
  obtain ⟨k, hk⟩ := System.ringing_hasConstants.exists_constants System.ringing_suits 1 0
    (Parametric.forcing System.ringing .standard).1 (by simp)
  have hc : (Parametric.resolve .underdamped System.ringing none .standard).coefficients = k.exact := hk
  have ha := Parametric.isApproximate_eq_false_iff.mpr ⟨by simp, Parametric.failure?_resolve hc⟩
  have hs := Response.ringing_system? .underdamped
  obtain ⟨_, -, -, -, hfollowed, -, hequation⟩ :=
    unapproximated_followed_iff hs (Response.prepare_of_system hs _) ha
  exact hfollowed ((hequation rfl).mpr ⟨System.ringing_suits, fun _ => System.ringing_literalForce⟩)

/-- Named undamped, the system is plotted as a cosine that never decays, and the plot is not marked
as approximate. -/
theorem ringing_undamped_not_followed :
    (Response.ringing .undamped).system? = .ok (some System.ringing) ∧
      ∃ p : Prepared Exact, (Response.ringing .undamped).prepare .standard = .ok p ∧
        p.isApproximate = false ∧ ¬System.ringing.IsFollowedBy p.value := by
  have hs := Response.ringing_system? .undamped
  have ho := System.ringing_hasConstants
  have hw := Spring.ringing.frequency_pos
  have hk : (Parametric.resolve .undamped System.ringing none .standard).coefficients =
      (Coefficients.undamped 1 (0 / Spring.ringing.frequency) Spring.ringing.frequency).exact :=
    Parametric.undamped_eq_exact.mpr ⟨1, 0, _, rfl, rfl, ho.naturalFrequency, hw.ne', rfl⟩
  refine ⟨hs, _, Response.prepare_of_system hs _, ?_, ?_⟩
  · refine Parametric.isApproximate_eq_false_iff.mpr ⟨by simp [Response.ringing], ?_⟩
    exact Parametric.failure?_resolve hk
  · rintro ⟨o, x, F, ho', hx, hF, hsolves⟩
    cases ho.unique ho'
    cases hx.unique (Parametric.prepare_draws hk)
    cases hF.unique System.ringing_literalForce
    -- A quarter of a period later the cosine moves, and damping would have slowed it.
    have hquarter := hsolves.sub (Coefficients.solves_own _) (Coefficients.hasDerivAt_motion _
      (Real.pi / 2 / Spring.ringing.frequency))
    simp only [Coefficients.friction, Coefficients.elasticity, Coefficients.drive, Coefficients.slope,
      Coefficients.motion, Coefficients.oscillation, Spring.ringing.frequency_sq,
      mul_div_cancel₀ _ hw.ne'] at hquarter
    simp [Spring.ringing] at hquarter
    exact hw.ne' hquarter

end Oscillator
