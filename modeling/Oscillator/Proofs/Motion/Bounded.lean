import Oscillator.Proofs.Caveats
import Oscillator.Proofs.Motion.Agreement
import Oscillator.Proofs.Motion.Reported
import Oscillator.Proofs.Reading.Unreported

/-! # Bounded motions

Nothing that is prepared for a plot grows without bound. The rates of a closed form come from
different places: from the parameters, from reported properties, from the characteristic roots, from
the terms of a text, or from the settings. Each of these places gives only rates of the right sign,
and a motion with such rates is bounded from time zero on.
-/
namespace Oscillator

section

variable {α : Type} [Arithmetic α]

/-- No rate lets the transient of a motion grow. -/
def Coefficients.Decays : Coefficients α → Prop
  | undamped _ _ _ => True
  | underdamped _ _ alpha _ | forced _ _ alpha _ _ => 0 ≤ alpha
  | critical _ _ rate => 0 < rate
  | overdamped _ _ r1 r2 => r1 < 0 ∧ r2 < 0

/-- The rates that stand in for missing ones are positive. -/
structure TextDefaults.HasPositiveRates (defaults : TextDefaults α) : Prop where
  underdampedDecay : 0 < defaults.underdampedDecay
  forcedDecay : 0 < defaults.forcedDecay
  criticalRate : 0 < defaults.criticalRate
  firstOverdampedRate : 0 < defaults.firstOverdampedRate
  secondOverdampedRate : 0 < defaults.secondOverdampedRate

end

/-- At every time from zero on, the signal stays between two bounds. -/
def Signal.IsBounded (f : Signal Exact) : Prop :=
  ∃ (x : ℝ → ℝ) (bound : ℝ), f.Draws x ∧ ∀ t, 0 ≤ t → |x t| ≤ bound

open Exact

section

variable {t rate : ℝ}

theorem abs_exp_mul_le (c : ℝ) (hr : rate ≤ 0) (ht : 0 ≤ t) : |c * Real.exp (rate * t)| ≤ |c| := by
  rw [abs_mul, Real.abs_exp]
  have hle : Real.exp (rate * t) ≤ 1 := Real.exp_le_one_iff.mpr (mul_nonpos_of_nonpos_of_nonneg hr ht)
  exact mul_le_of_le_one_right (abs_nonneg c) hle

/-- Time does not outweigh a decay. -/
theorem abs_mul_mul_exp_le (c : ℝ) (hr : 0 < rate) (ht : 0 ≤ t) :
    |c * t * Real.exp (-rate * t)| ≤ |c| / rate := by
  have htime : t * Real.exp (-rate * t) ≤ 1 / rate := by
    rw [le_div_iff₀ hr, neg_mul, Real.exp_neg]
    have hlt : rate * t ≤ Real.exp (rate * t) := by linarith [Real.add_one_le_exp (rate * t)]
    calc t * (Real.exp (rate * t))⁻¹ * rate = rate * t / Real.exp (rate * t) := by ring
      _ ≤ 1 := (div_le_one (Real.exp_pos _)).mpr hlt
  calc |c * t * Real.exp (-rate * t)| = |c| * (t * Real.exp (-rate * t)) := by
        rw [mul_assoc, abs_mul, abs_of_nonneg (mul_nonneg ht (Real.exp_pos _).le)]
    _ ≤ |c| * (1 / rate) := by gcongr
    _ = |c| / rate := by ring

theorem abs_cos_add_sin_le (c s phase : ℝ) : |c * Real.cos phase + s * Real.sin phase| ≤ |c| + |s| := by
  refine (abs_add_le _ _).trans (add_le_add ?_ ?_)
  · rw [abs_mul]
    exact mul_le_of_le_one_right (abs_nonneg c) (Real.abs_cos_le_one phase)
  · rw [abs_mul]
    exact mul_le_of_le_one_right (abs_nonneg s) (Real.abs_sin_le_one phase)

end

theorem Harmonic.abs_wave_le (h : Harmonic ℝ) (t : ℝ) :
    |h.wave t| ≤ |h.offset| + (|h.cosine| + |h.sine|) := by
  rw [wave, add_assoc]
  exact (abs_add_le _ _).trans (by gcongr; exact abs_cos_add_sin_le _ _ _)

namespace Coefficients

theorem abs_oscillation_le (c1 c2 omega : ℝ) {alpha t : ℝ} (ha : 0 ≤ alpha) (ht : 0 ≤ t) :
    |oscillation c1 c2 alpha omega t| ≤ |c1| + |c2| := by
  rw [oscillation, mul_comm]
  exact (abs_exp_mul_le _ (neg_nonpos.mpr ha) ht).trans (abs_cos_add_sin_le _ _ _)

/-- A bound of a motion whose rates do not let it grow. -/
noncomputable def bound : Coefficients ℝ → ℝ
  | undamped c1 c2 _ | underdamped c1 c2 _ _ | overdamped c1 c2 _ _ => |c1| + |c2|
  | forced c1 c2 _ _ steady =>
    |c1| + |c2| + (|steady.offset| + (|steady.cosine| + |steady.sine|))
  | critical c1 c2 rate => |c1| + |c2| / rate

theorem abs_motion_le {k : Coefficients ℝ} (h : k.exact.Decays) {t : ℝ} (ht : 0 ≤ t) :
    |k.motion t| ≤ k.bound := by
  cases k with
  | undamped c1 c2 omega => exact abs_oscillation_le c1 c2 omega le_rfl ht
  | underdamped c1 c2 alpha omegaD =>
    have ha : 0 ≤ alpha := by simpa [exact, Decays] using h
    exact abs_oscillation_le c1 c2 omegaD ha ht
  | forced c1 c2 alpha omegaD steady =>
    have ha : 0 ≤ alpha := by simpa [exact, Decays] using h
    exact (abs_add_le _ _).trans
      (add_le_add (abs_oscillation_le c1 c2 omegaD ha ht) (steady.abs_wave_le t))
  | critical c1 c2 rate =>
    have hr : 0 < rate := by simpa [exact, Decays] using h
    rw [motion, add_mul]
    exact (abs_add_le _ _).trans
      (add_le_add (abs_exp_mul_le c1 (neg_nonpos.mpr hr.le) ht) (abs_mul_mul_exp_le c2 hr ht))
  | overdamped c1 c2 r1 r2 =>
    obtain ⟨h1, h2⟩ : r1 < 0 ∧ r2 < 0 := by simpa [exact, Decays] using h
    exact (abs_add_le _ _).trans
      (add_le_add (abs_exp_mul_le c1 h1.le ht) (abs_exp_mul_le c2 h2.le ht))

end Coefficients

theorem Reference.isBounded (r : Reference) : Signal.IsBounded r.value := by
  cases r with
  | cosine => exact ⟨Real.cos, 1, fun t => rfl, fun t _ => Real.abs_cos_le_one t⟩
  | decayingCosine =>
    refine ⟨fun t => Real.cos t * Real.exp (-0.2 * t), 1, fun t => by simp [value, mul_comm], ?_⟩
    exact fun t ht => (abs_exp_mul_le _ (by norm_num) ht).trans (Real.abs_cos_le_one t)

/-- A signal is bounded if no rate of its closed form lets it grow. -/
theorem Resolution.prepare_isBounded {q : Resolution Exact}
    (h : ∀ c, q.prepare.signal = .regime c → c.Decays) : q.prepare.value.IsBounded := by
  cases hs : q.prepare.signal with
  | reference reference =>
    rw [Prepared.value, hs]
    exact reference.isBounded
  | regime c =>
    obtain ⟨k, -, hk⟩ := exists_exact fun reference hr => by cases hs.symm.trans hr
    rw [Prepared.value, hk]
    exact ⟨k.motion, k.bound, k.draws_motion, fun t => Coefficients.abs_motion_le (h _ hk)⟩

/-! The rates of parametric constants. Reported properties replace the computed ones only where they
have the right sign. -/

namespace Characteristics

/-- The frequency, the rate and the roots are those of real numbers with the signs that a spring
gives them. -/
structure HasSpringSigns (c : Characteristics Exact) (omega alpha zeta : ℝ) : Prop where
  omega_pos : 0 < omega
  alpha_nonneg : 0 ≤ alpha
  zeta_nonneg : 0 ≤ zeta
  naturalFrequency : c.naturalFrequency = real omega
  decayRate : c.decayRate = real alpha
  firstRoot : c.firstRoot = (roots (real omega) (real zeta)).1
  secondRoot : c.secondRoot = (roots (real omega) (real zeta)).2

theorem exists_hasSpringSigns {s : System Exact} (hs : s.IsValid)
    (properties : Option (Properties Exact)) :
    ∃ omega alpha zeta, ((ofSystem s).mergedWith properties).HasSpringSigns omega alpha zeta := by
  obtain ⟨o, ho⟩ := hs.exists_spring
  cases properties with
  | none =>
    refine ⟨o.frequency, o.rate, o.ratio, o.frequency_pos, o.rate_nonneg, o.ratio_nonneg,
      ho.naturalFrequency, ho.decayRate, ?_, ?_⟩
    · rw [mergedWith, ho.ofSystem_eq]; rfl
    · rw [mergedWith, ho.ofSystem_eq]; rfl
  | some p =>
    obtain ⟨omega, hw, homega⟩ := exists_positive?_getD p.naturalFrequency o.frequency_pos
    obtain ⟨alpha, ha, halpha⟩ := exists_nonnegative?_getD p.dampingCoefficient o.rate_nonneg
    obtain ⟨zeta, hz, hzeta⟩ := exists_nonnegative?_getD p.dampingRatio o.ratio_nonneg
    rw [← ho.naturalFrequency] at hw
    rw [← ho.decayRate] at ha
    rw [← ho.dampingRatio] at hz
    refine ⟨omega, alpha, zeta, homega, halpha, hzeta, hw, ha, ?_, ?_⟩
    · rw [mergedWith, hw, hz]; rfl
    · rw [mergedWith, hw, hz]; rfl

end Characteristics

namespace Parametric

theorem constants_decays {regime : Regime} {c : Characteristics Exact} {x v : Exact}
    {forcing : Harmonic Exact} {k : Coefficients ℝ} {omega alpha zeta : ℝ}
    (hc : c.HasSpringSigns omega alpha zeta) (hk : constants regime c x v forcing = k.exact) :
    k.exact.Decays := by
  cases regime with
  | undamped =>
    obtain ⟨_, _, _, -, -, -, -, rfl⟩ := undamped_eq_exact.mp hk
    trivial
  | underdamped =>
    obtain ⟨_, _, _, _, -, -, ha, -, -, rfl⟩ := underdamped_eq_exact.mp hk
    cases hc.decayRate.symm.trans ha
    simpa [Coefficients.exact, Coefficients.Decays] using hc.alpha_nonneg
  | forced =>
    obtain ⟨_, _, _, _, _, -, -, ha, -, -, -, rfl⟩ := forced_eq_exact.mp hk
    cases hc.decayRate.symm.trans ha
    simpa [Coefficients.exact, Coefficients.Decays] using hc.alpha_nonneg
  | critical =>
    obtain ⟨_, _, _, -, -, hw, rfl⟩ := critical_eq_exact.mp hk
    cases hc.naturalFrequency.symm.trans hw
    simpa [Coefficients.exact, Coefficients.Decays] using hc.omega_pos
  | overdamped =>
    obtain ⟨_, _, r1, r2, -, -, h1, h2, hne, rfl⟩ := overdamped_eq_exact.mp hk
    obtain ⟨hre1, hre2⟩ := Characteristics.roots_re omega zeta
    rw [← hc.firstRoot, h1] at hre1
    rw [← hc.secondRoot, h2] at hre2
    cases hre1
    cases hre2
    -- Roots with one real part leave the amplitudes without a value, so the discriminant is positive.
    have hroot : √(zeta ^ 2 - 1) ≠ 0 := by
      intro h
      rw [h] at hne
      exact hne (by ring)
    have hdisc : 0 < √(zeta ^ 2 - 1) := lt_of_le_of_ne (Real.sqrt_nonneg _) hroot.symm
    have hlt : √(zeta ^ 2 - 1) < zeta := by
      rw [Real.sqrt_lt' (by nlinarith [Real.sqrt_pos.mp hdisc, hc.zeta_nonneg])]
      linarith
    have hw := hc.omega_pos
    have hneg1 : -(zeta + √(zeta ^ 2 - 1)) * omega < 0 := by nlinarith [hc.zeta_nonneg]
    have hneg2 : -(zeta - √(zeta ^ 2 - 1)) * omega < 0 := by nlinarith
    exact ⟨by rwa [zero_eq, real_lt], by rwa [zero_eq, real_lt]⟩

end Parametric

/-! The rates of constants read from a text. Those of terms are negative, since terms that grow are
passed over. -/

theorem Exact.neg_pos_of_neg {x : Exact} (h : x < 0) : 0 < -x := by
  cases x with
  | undefined => simp at h
  | real x => simpa using h

theorem Exact.neg_neg_of_pos {x : Exact} (h : 0 < x) : -x < 0 := by
  cases x with
  | undefined => simp at h
  | real x => simpa using h

theorem Exact.nonneg_of_pos {x : Exact} (h : 0 < x) : 0 ≤ x := by
  cases x with
  | undefined => simp at h
  | real x =>
    rw [zero_eq, real_lt] at h
    rw [zero_eq, real_le]
    exact h.le

namespace Textual

variable {defaults : TextDefaults Exact} {terms : List (Monomial Exact)}

theorem orDefault_pos {component : Component} {default : Exact} {x : Option Exact}
    (hd : 0 < default) (hx : ∀ y, x = some y → 0 < y) : 0 < (orDefault component default x).1 := by
  cases x with
  | none => exact hd
  | some y => exact hx y rfl

theorem pos_of_find {p : Monomial Exact → Bool} (hp : ∀ m, p m = true → m.rate < 0) :
    ∀ y, (terms.find? p).map (-·.rate) = some y → 0 < y := by
  intro y hy
  obtain ⟨m, hm, rfl⟩ := Option.map_eq_some_iff.mp hy
  exact neg_pos_of_neg (hp m (List.find?_some hm))

theorem decayRate_pos {oscillating : Bool} : ∀ y, decayRate? terms oscillating = some y → 0 < y := by
  refine pos_of_find fun m hm => ?_
  simp only [Bool.and_eq_true, decide_eq_true_eq] at hm
  exact hm.1.1

/-- Terms add to the coefficient of an exponential, and never change its rate. -/
theorem addExponential_rate {found : List (Exponential Exact)} {m : Monomial Exact}
    (hfound : ∀ e ∈ found, e.rate < 0) (hm : m.rate < 0) :
    ∀ e ∈ addExponential found m, e.rate < 0 := by
  intro e he
  unfold addExponential at he
  split at he
  case h_1 i hi =>
    obtain ⟨j, hj, rfl⟩ := List.getElem_of_mem he
    rw [List.getElem_modify]
    have hrate := hfound _ (List.getElem_mem (List.length_modify .. ▸ hj))
    split
    all_goals exact hrate
  case h_2 hnone =>
    split at he
    case isTrue =>
      rcases List.mem_append.mp he with he | he
      · exact hfound e he
      · rw [List.mem_singleton.mp he]
        exact hm
    case isFalse => exact hfound e he

theorem foldl_addExponential_rate {found : List (Exponential Exact)}
    (hfound : ∀ e ∈ found, e.rate < 0) (hts : ∀ m ∈ terms, m.rate < 0) :
    ∀ e ∈ terms.foldl addExponential found, e.rate < 0 := by
  induction terms generalizing found with
  | nil => exact hfound
  | cons m ts ih =>
    exact ih (addExponential_rate hfound (hts m List.mem_cons_self))
      fun b hb => hts b (List.mem_cons_of_mem m hb)

theorem exponentials_rate : ∀ e ∈ exponentials terms, e.rate < 0 := by
  refine foldl_addExponential_rate (List.forall_mem_nil _) fun m hm => ?_
  have hp := (List.mem_filter.mp hm).2
  simp only [Bool.and_eq_true, decide_eq_true_eq] at hp
  exact hp.1.1

theorem overdamped_decays (hd : defaults.HasPositiveRates) : (overdamped defaults terms).1.Decays := by
  have hfirst := neg_neg_of_pos hd.firstOverdampedRate
  have hother (same : Bool) :
      -(if same then defaults.firstOverdampedRate else defaults.secondOverdampedRate) < 0 := by
    cases same with
    | true => exact hfirst
    | false => exact neg_neg_of_pos hd.secondOverdampedRate
  have hrates : ∀ e ∈ exponentials terms, e.rate < 0 := exponentials_rate
  match hfound : exponentials terms with
  | [] =>
    rw [exponentials] at hfound
    simp only [overdamped, hfound]
    exact ⟨hfirst, hother _⟩
  | [e] =>
    have he := hrates e (by simp [hfound])
    rw [exponentials] at hfound
    simp only [overdamped, hfound]
    exact ⟨he, hother _⟩
  | first :: second :: rest =>
    rw [overdamped_of_two hfound]
    exact ⟨hrates first (by simp [hfound]), hrates second (by simp [hfound])⟩

/-- Whatever the terms are, no rate that is read from them lets a motion grow. -/
theorem coefficients_decays (hd : defaults.HasPositiveRates) (regime : Regime) :
    (coefficients regime defaults terms).1.Decays := by
  cases regime with
  | undamped => trivial
  | underdamped => exact nonneg_of_pos (orDefault_pos hd.underdampedDecay decayRate_pos)
  | forced => exact nonneg_of_pos (orDefault_pos hd.forcedDecay decayRate_pos)
  | critical =>
    exact orDefault_pos hd.criticalRate (pos_of_find fun m hm => of_decide_eq_true hm)
  | overdamped => exact overdamped_decays hd

end Textual

/-- The constants of a response are computed from its system, or read from terms. -/
theorem Response.coefficients_of_resolve {α : Type} [Arithmetic α] {r : Response α}
    {settings : Settings α} {q : Resolution α} (h : r.resolve settings = .ok q) :
    (∃ (s : System α) (forcing : Harmonic α), r.system? = .ok (some s) ∧ q.coefficients =
      Parametric.constants r.regime ((Characteristics.ofSystem s).mergedWith r.properties)
        s.initialPosition s.initialVelocity forcing) ∨
      ∃ terms, q.coefficients = (Textual.coefficients r.regime settings.textDefaults terms).1 := by
  rw [resolve] at h
  cases hs : r.system? with
  | error e => simp [hs] at h
  | ok system =>
    cases system with
    | some s =>
      simp only [hs] at h
      cases h
      exact .inl ⟨s, _, rfl, Parametric.resolve_coefficients ..⟩
    | none =>
      cases ht : r.solutionText with
      | none => simp [hs, ht] at h
      | some text =>
        simp only [hs, ht] at h
        cases h
        exact .inr ⟨_, rfl⟩

/-- Exponents of time are stored in the terms, and nowhere else. -/
theorem Response.coefficients_of_storing {store : Int → Int} {r : Response Exact}
    {settings : Settings Exact} {q : Resolution Exact}
    (h : letI := Exact.storing store; r.resolve settings = .ok q) :
    (∃ (s : System Exact) (forcing : Harmonic Exact), r.system? = .ok (some s) ∧ q.coefficients =
      Parametric.constants r.regime ((Characteristics.ofSystem s).mergedWith r.properties)
        s.initialPosition s.initialVelocity forcing) ∨
      ∃ terms, q.coefficients = (Textual.coefficients r.regime settings.textDefaults terms).1 := by
  have hsystem : @Response.system? Exact (Exact.storing store) = Response.system? := rfl
  have hofSystem : @Characteristics.ofSystem Exact (Exact.storing store) =
    Characteristics.ofSystem := rfl
  have hmerged : @Characteristics.mergedWith Exact (Exact.storing store) =
    Characteristics.mergedWith := rfl
  have hconstants : @Parametric.constants Exact (Exact.storing store) = Parametric.constants := rfl
  have hread : @Textual.coefficients Exact (Exact.storing store) = Textual.coefficients := rfl
  have hstored := @coefficients_of_resolve Exact (Exact.storing store) _ _ _ h
  rwa [hsystem, hofSystem, hmerged, hconstants, hread] at hstored

/-- Every signal that is prepared for a plot is bounded from time zero on, as long as the rates that
stand in for missing ones are positive: no closed form that is shown has a rate by which it would
grow. How exponents of time are stored does not matter. -/
theorem prepared_isBounded (store : Int → Int) {r : Response Exact} {settings : Settings Exact}
    {p : Prepared Exact} (hd : settings.textDefaults.HasPositiveRates)
    (hp : letI := Exact.storing store; r.prepare settings = .ok p) :
    (∀ c, p.signal = .regime c → c.Decays) ∧ p.value.IsBounded := by
  obtain ⟨q, hq, rfl⟩ := @Response.exists_resolve_of_prepare Exact (Exact.storing store) _ _ _ hp
  have hdecays : ∀ c, q.prepare.signal = .regime c → c.Decays := by
    intro c hc
    obtain ⟨k, hk, hsignal⟩ := q.exists_exact fun reference hr => by cases hc.symm.trans hr
    cases hc.symm.trans hsignal
    rcases Response.coefficients_of_storing hq with
      ⟨s, forcing, hs, hcoefficients⟩ | ⟨terms, hcoefficients⟩
    · obtain ⟨_, _, _, hsigns⟩ :=
        Characteristics.exists_hasSpringSigns (Response.system?_isValid hs) r.properties
      exact Parametric.constants_decays hsigns (hcoefficients.symm.trans hk)
    · rw [← hk, hcoefficients]
      exact Textual.coefficients_decays hd r.regime
  exact ⟨hdecays, Resolution.prepare_isBounded hdecays⟩

theorem TextDefaults.standard_hasPositiveRates :
    (TextDefaults.standard : TextDefaults Exact).HasPositiveRates := by
  constructor
  all_goals
    simp only [standard, ofNat_eq, ofScientific_eq, real_lt]
    norm_num

/-- A cosine that is named critically damped has no rate to be read. -/
theorem prepared_isBounded_undecayed :
    ∃ p : Prepared Exact, (Response.written .critical cancellingText).prepare .standard = .ok p ∧
      (∀ c, p.signal = .regime c → c.Decays) ∧ p.value.IsBounded := by
  have hp : (Response.written .critical cancellingText).prepare .standard =
      .ok (Textual.resolve .critical cancellingText none TextDefaults.standard).prepare := by
    rw [Response.prepare, Response.written_resolve]
    rfl
  exact ⟨_, hp, prepared_isBounded id TextDefaults.standard_hasPositiveRates hp⟩

end Oscillator
