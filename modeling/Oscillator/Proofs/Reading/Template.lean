import Oscillator.Proofs.Motion.Template
import Oscillator.Proofs.Reading.Gathering

/-! # Texts of a template

A text that is a sum of its regime's kind is read without a loss: at every time at which the text has
a value, the closed form of the constants read from it has the same one.
-/
namespace Oscillator

open Exact Monomial

def TextDefaults.exact (d : TextDefaults ℝ) : TextDefaults Exact where
  placeholder := real d.placeholder
  underdampedDecay := real d.underdampedDecay
  forcedDecay := real d.forcedDecay
  angularFrequency := real d.angularFrequency
  forcingFrequency := real d.forcingFrequency
  criticalRate := real d.criticalRate
  firstOverdampedRate := real d.firstOverdampedRate
  secondOverdampedRate := real d.secondOverdampedRate

/-- The sums that the closed form of a regime can be written as. Two rates are compared as the text
is read, the one met first with the other, since the tolerance is that of the first. -/
def Regime.Fits : Regime → List (Monomial Exact) → Prop
  | undamped, ts => ∃ w, ∀ m ∈ ts, m.IsWave 0 w
  | underdamped, ts => ∃ r w, r < 0 ∧ ∀ m ∈ ts, m.IsWave r w
  | forced, ts => (∃ r w v, r < 0 ∧ ∀ m ∈ ts, m.IsWave r w ∨ m.IsWave 0 v ∨ m.IsPower 0 0) ∧
      ∃ m ∈ ts, m.oscillation.isSome = true
  | critical, ts => ∃ r, r < 0 ∧ ∀ m ∈ ts, m.IsPower r 0 ∨ m.IsPower r 1
  | overdamped, ts => ∃ r₁ r₂, r₁ < 0 ∧ r₂ < 0 ∧ (∀ m ∈ ts.head?, m.IsPower r₁ 0) ∧
      ∀ m ∈ ts, m.IsPower r₁ 0 ∨ m.IsPower r₂ 0 ∧ Textual.sameRate (real r₁) (real r₂) = false

namespace Textual

variable {defaults : TextDefaults ℝ} {ts : List (Monomial Exact)} {t x r w v : ℝ}

theorem orDefault_eq {component : Component} {default : Exact} {y : Option Exact} :
    orDefault component default y =
      (y.getD default, if y.isSome then [] else [.fallbackConstant component default]) := by
  cases y <;> rfl

section

variable {α : Type} [Arithmetic α]

def decaying (terms : List (Monomial α)) : List (Monomial α) :=
  terms.filter fun m => decide (m.rate < 0)

def remaining (terms : List (Monomial α)) : List (Monomial α) :=
  terms.filter fun m => !decide (m.rate < 0)

def steadyWaves (terms : List (Monomial α)) : List (Monomial α) :=
  (remaining terms).filter (·.oscillation.isSome)

def constants (terms : List (Monomial α)) : List (Monomial α) :=
  (remaining terms).filter fun m => !m.oscillation.isSome

end

/-- Where no wave is met, the sums are zero and any frequency will do. -/
theorem Waves.ofTerms_getD (h : ∀ m ∈ ts, m.IsWave r w) (hx : sumValue ts (real t) = real x)
    (default : ℝ) : ∃ c s v, (Waves.ofTerms ts).cosine = real c ∧ (Waves.ofTerms ts).sine = real s ∧
      (Waves.ofTerms ts).frequency.getD (real default) = real v ∧
      Real.exp (r * t) * (c * Real.cos (v * t) + s * Real.sin (v * t)) = x ∧
      (Waves.ofTerms ts).found = !ts.isEmpty := by
  cases ts with
  | nil =>
    rw [sumValue_nil] at hx
    cases hx
    exact ⟨0, 0, default, zero_eq, zero_eq, rfl, by ring, rfl⟩
  | cons m ts =>
    obtain ⟨c, s, hw, hsum⟩ := Waves.ofTerms_waves h hx (List.cons_ne_nil m ts)
    rw [hw]
    exact ⟨c, s, w, rfl, rfl, rfl, hsum, rfl⟩

theorem undamped_motion (hfit : Regime.undamped.Fits ts) (hne : ts ≠ [])
    (hx : sumValue ts (real t) = real x) :
    ∃ k : Coefficients ℝ, (undamped defaults.exact ts).1 = k.exact ∧ k.motion t = x := by
  obtain ⟨w, h⟩ := hfit
  have hsteady : steadyTerms ts = ts := by
    refine List.filter_eq_self.mpr fun m hm => ?_
    simp [(h m hm).rate, (h m hm).timePower]
  obtain ⟨c, s, hw, hsum⟩ := Waves.ofTerms_waves h hx hne
  refine ⟨.undamped c s w, ?_, ?_⟩
  · simp only [undamped, hsteady, hw, Waves.gathered, orDefault_some, amplitudes_true]
    rfl
  · rw [← hsum, Coefficients.motion, Coefficients.oscillation, neg_zero]

/-- The decaying terms, whatever the rate is taken to be where none decays. -/
theorem decayingTerms_eq (hts : ∀ m ∈ ts, m.rate < 0 → m.IsWave r w) {alpha : Exact}
    (halpha : (∃ m ∈ ts, m.rate < 0) → alpha = real (-r)) :
    decayingTerms ts alpha = decaying ts := by
  refine List.filter_congr fun m hm => ?_
  by_cases hneg : m.rate < 0
  · have hkind := hts m hm hneg
    rw [halpha ⟨m, hm, hneg⟩]
    simp [hkind.rate, hkind.timePower]
  · simp only [decide_eq_false hneg, Bool.false_and]

theorem decayRate?_eq (hts : ∀ m ∈ ts, m.rate < 0 → m.IsWave r w) (hex : ∃ m ∈ ts, m.rate < 0) :
    decayRate? ts true = some (real (-r)) := by
  rw [decayRate?]
  cases hfind : ts.find? _ with
  | none =>
    obtain ⟨m, hm, hneg⟩ := hex
    obtain ⟨-, hpower, wave, ho⟩ := hts m hm hneg
    have hskip := List.find?_eq_none.mp hfind m hm
    rw [decide_eq_true hneg, hpower, ho] at hskip
    exact absurd rfl hskip
  | some m =>
    have hm := List.mem_of_find?_eq_some hfind
    have hp := List.find?_some hfind
    simp only [Bool.and_eq_true, decide_eq_true_eq] at hp
    rw [Option.map_some, (hts m hm hp.1.1).rate, real_neg]

theorem exists_decay (hts : ∀ m ∈ ts, m.rate < 0 → m.IsWave r w) (default : ℝ) :
    ∃ alpha, (decayRate? ts true).getD (real default) = real alpha ∧
      ((∃ m ∈ ts, m.rate < 0) → alpha = -r) := by
  by_cases hex : ∃ m ∈ ts, m.rate < 0
  · exact ⟨-r, by rw [decayRate?_eq hts hex, Option.getD_some], fun _ => rfl⟩
  · refine ⟨default, ?_, fun h => absurd h hex⟩
    have hnone : decayRate? ts true = none := by
      rw [decayRate?, Option.map_eq_none_iff, List.find?_eq_none]
      intro m hm
      have hneg : ¬m.rate < 0 := fun h => hex ⟨m, hm, h⟩
      rw [decide_eq_false hneg]
      exact Bool.false_ne_true
    rw [hnone, Option.getD_none]

theorem underdamped_motion (hfit : Regime.underdamped.Fits ts) (hne : ts ≠ [])
    (hx : sumValue ts (real t) = real x) :
    ∃ k : Coefficients ℝ, (underdamped defaults.exact ts).1 = k.exact ∧ k.motion t = x := by
  obtain ⟨r, w, hr, h⟩ := hfit
  have hneg : ∀ m ∈ ts, m.rate < 0 := by
    intro m hm
    rw [(h m hm).rate, zero_eq]
    exact hr
  have hrate : decayRate? ts true = some (real (-r)) := by
    obtain ⟨m, hm⟩ := List.exists_mem_of_ne_nil ts hne
    exact decayRate?_eq (fun m hm _ => h m hm) ⟨m, hm, hneg m hm⟩
  have hterms : decayingTerms ts (real (-r)) = ts := by
    rw [decayingTerms_eq (fun m hm _ => h m hm) fun _ => rfl]
    exact List.filter_eq_self.mpr fun m hm => decide_eq_true (hneg m hm)
  obtain ⟨c, s, hw, hsum⟩ := Waves.ofTerms_waves h hx hne
  refine ⟨.underdamped c s (-r) w, ?_, ?_⟩
  · simp only [underdamped, hrate, orDefault_some, hterms, hw, Waves.gathered, amplitudes_true]
    rfl
  · rw [← hsum, Coefficients.motion, Coefficients.oscillation, neg_neg]

/-! The three kinds of terms in a forced motion. -/

section

variable {m : Monomial Exact}

theorem mem_remaining : m ∈ remaining ts ↔ m ∈ ts ∧ ¬m.rate < 0 := by
  rw [remaining, List.mem_filter, Bool.not_eq_true', decide_eq_false_iff_not]

variable (hr : r < 0) (h : ∀ m ∈ ts, m.IsWave r w ∨ m.IsWave 0 v ∨ m.IsPower 0 0)
include hr h

omit hr in
theorem isWave_of_decays (hm : m ∈ ts) (hneg : m.rate < 0) : m.IsWave r w := by
  rcases h m hm with hkind | hkind | hkind
  · exact hkind
  · simp [hkind.rate] at hneg
  · simp [hkind.rate] at hneg

theorem steady_of_remaining (hm : m ∈ remaining ts) : m.IsWave 0 v ∨ m.IsPower 0 0 := by
  obtain ⟨hm, hneg⟩ := mem_remaining.mp hm
  rcases h m hm with hkind | hkind
  · simp [hkind.rate, hr] at hneg
  · exact hkind

theorem isWave_of_steadyWaves (hm : m ∈ steadyWaves ts) : m.IsWave 0 v := by
  obtain ⟨hm, hosc⟩ := List.mem_filter.mp hm
  rcases steady_of_remaining hr h hm with hkind | hkind
  · exact hkind
  · simp [hkind.oscillation] at hosc

theorem isPower_of_constants (hm : m ∈ constants ts) : m.IsPower 0 0 := by
  obtain ⟨hm, hosc⟩ := List.mem_filter.mp hm
  rcases steady_of_remaining hr h hm with ⟨-, -, wave, ho⟩ | hkind
  · simp [ho] at hosc
  · exact hkind

/-- Constants are among the steady terms of the reader, which passes them over. -/
theorem ofTerms_steadyTerms : Waves.ofTerms (steadyTerms ts) = Waves.ofTerms (steadyWaves ts) := by
  rw [← Waves.ofTerms_filter_isSome, steadyTerms, steadyWaves, remaining, List.filter_filter,
    List.filter_filter]
  refine congrArg _ (List.filter_congr fun m hm => ?_)
  rcases h m hm with ⟨hrate, hpower, wave, ho⟩ | ⟨hrate, hpower, wave, ho⟩ | ⟨hrate, hpower, ho⟩
  · simp [hrate, ho, hr, hr.ne]
  · simp [hrate, hpower, ho]
  · simp [hrate, hpower, ho]

omit hr in
theorem filter_isConstant : ts.filter (·.isConstant) = constants ts := by
  rw [constants, remaining, List.filter_filter]
  refine List.filter_congr fun m hm => ?_
  rcases h m hm with ⟨hrate, hpower, wave, ho⟩ | ⟨hrate, hpower, wave, ho⟩ | ⟨hrate, hpower, ho⟩
  · simp [isConstant, hrate, ho]
  · simp [isConstant, hrate, hpower, ho]
  · simp [isConstant, hrate, hpower, ho]

end

/-- A rate that no term has can be replaced by any other. -/
theorem oscillation_of_decay {c s alpha omega y : ℝ}
    (hsum : Real.exp (r * t) * (c * Real.cos (omega * t) + s * Real.sin (omega * t)) = y)
    (h : alpha = -r ∨ y = 0) : Coefficients.oscillation c s alpha omega t = y := by
  rw [Coefficients.oscillation]
  rcases h with rfl | rfl
  · rw [neg_neg, hsum]
  · rw [(mul_eq_zero.mp hsum).resolve_left (Real.exp_ne_zero _), mul_zero]

theorem forced_motion (hfit : Regime.forced.Fits ts) (hx : sumValue ts (real t) = real x) :
    ∃ k : Coefficients ℝ, (forced defaults.exact ts).1 = k.exact ∧ k.motion t = x := by
  obtain ⟨⟨r, w, v, hr, h⟩, m, hm, hosc⟩ := hfit
  have hdecays : ∀ m ∈ ts, m.rate < 0 → m.IsWave r w := fun m hm => isWave_of_decays h hm
  have hdecaying : ∀ m ∈ decaying ts, m.IsWave r w := by
    intro m hm
    obtain ⟨hm, hneg⟩ := List.mem_filter.mp hm
    exact hdecays m hm (of_decide_eq_true hneg)
  have hsteady : ∀ m ∈ steadyWaves ts, m.IsWave 0 v := fun m hm => isWave_of_steadyWaves hr h hm
  have hconstants : ∀ m ∈ constants ts, m.IsPower 0 0 := fun m hm => isPower_of_constants hr h hm
  -- The sum falls into the transient, the steady waves and the constants.
  obtain ⟨y, z, hy, hz, rfl⟩ := sumValue_filter (fun m => decide (m.rate < 0)) hx
  obtain ⟨z₁, z₂, hz₁, hz₂, rfl⟩ := sumValue_filter (·.oscillation.isSome) hz
  obtain ⟨alpha, halpha, hdecay⟩ := exists_decay hdecays defaults.forcedDecay
  obtain ⟨c, s, omega, hc, hs, homega, hsum, hfound⟩ :=
    Waves.ofTerms_getD hdecaying hy defaults.angularFrequency
  obtain ⟨c', s', frequency, hc', hs', hfrequency, hsum', hfound'⟩ :=
    Waves.ofTerms_getD hsteady hz₁ defaults.forcingFrequency
  obtain ⟨offset, hoffset, hsum''⟩ := sum_coefficients hconstants hz₂
  have hterms := decayingTerms_eq hdecays fun hex => congrArg real (hdecay hex)
  have hany : ((Waves.ofTerms (decaying ts)).found ||
      (Waves.ofTerms (steadyWaves ts)).found) = true := by
    rw [hfound, hfound', Bool.or_eq_true]
    by_cases hneg : m.rate < 0
    · have hmem : m ∈ decaying ts := List.mem_filter.mpr ⟨hm, decide_eq_true hneg⟩
      exact Or.inl (by simp [List.ne_nil_of_mem hmem])
    · have hmem : m ∈ steadyWaves ts := List.mem_filter.mpr ⟨mem_remaining.mpr ⟨hm, hneg⟩, hosc⟩
      exact Or.inr (by simp [List.ne_nil_of_mem hmem])
  refine ⟨.forced c s alpha omega ⟨offset, c', s', frequency⟩, ?_, ?_⟩
  · have hd : defaults.exact.forcedDecay = real defaults.forcedDecay := rfl
    have hd' : defaults.exact.angularFrequency = real defaults.angularFrequency := rfl
    have hd'' : defaults.exact.forcingFrequency = real defaults.forcingFrequency := rfl
    simp only [forced, orDefault_eq, hd, hd', hd'', halpha, hterms, ofTerms_steadyTerms hr h, hany,
      amplitudes_true, hc, hs, hc', hs', homega, hfrequency, filter_isConstant h, hoffset]
    rfl
  · have hnone : alpha = -r ∨ y = 0 := by
      by_cases hex : ∃ m ∈ ts, m.rate < 0
      · exact Or.inl (hdecay hex)
      · have hempty : ts.filter (fun m => decide (m.rate < 0)) = [] := by
          rw [List.filter_eq_nil_iff]
          intro m hm hneg
          exact hex ⟨m, hm, of_decide_eq_true hneg⟩
        rw [hempty, sumValue_nil] at hy
        exact Or.inr (Exact.real.inj hy).symm
    rw [Coefficients.motion, oscillation_of_decay hsum hnone, ← hsum', ← hsum'', Harmonic.wave]
    simp
    ring

theorem critical_motion (hfit : Regime.critical.Fits ts) (hne : ts ≠ [])
    (hx : sumValue ts (real t) = real x) :
    ∃ k : Coefficients ℝ, (critical defaults.exact ts).1 = k.exact ∧ k.motion t = x := by
  obtain ⟨r, hr, h⟩ := hfit
  have hkind : ∀ m ∈ ts, m.rate = real r ∧ m.oscillation = none := by
    intro m hm
    rcases h m hm with hkind | hkind
    · exact ⟨hkind.rate, hkind.oscillation⟩
    · exact ⟨hkind.rate, hkind.oscillation⟩
  have hstill : ts.filter (·.oscillation.isNone) = ts :=
    List.filter_eq_self.mpr fun m hm => by rw [(hkind m hm).2, Option.isNone_none]
  have hsame : ts.filter (fun m => sameRate (-m.rate) (real (-r))) = ts :=
    List.filter_eq_self.mpr fun m hm => by rw [(hkind m hm).1, real_neg, sameRate_self]
  obtain ⟨first, rest, rfl⟩ := List.exists_cons_of_ne_nil hne
  have hfirst := hkind first List.mem_cons_self
  have hrate : (first :: rest).find? (fun m => decide (m.rate < 0)) = some first :=
    List.find?_cons_of_pos (by simp [hfirst.1, hr])
  obtain ⟨y, z, hy, hz, rfl⟩ := sumValue_filter (·.timePower == 0) hx
  -- What does not stand alone stands with time itself.
  have hlinear : (first :: rest).filter (fun m => !(m.timePower == 0)) =
      (first :: rest).filter (·.timePower == 1) := by
    refine List.filter_congr fun m hm => ?_
    rcases h m hm with hkind | hkind
    · simp [hkind.timePower]
    · simp [hkind.timePower]
  rw [hlinear] at hz
  obtain ⟨c₁, hc₁, rfl⟩ := sum_coefficients (r := r) (n := 0) (by
    intro m hm
    obtain ⟨hm, hpower⟩ := List.mem_filter.mp hm
    exact ⟨(hkind m hm).1, eq_of_beq hpower, (hkind m hm).2⟩) hy
  obtain ⟨c₂, hc₂, rfl⟩ := sum_coefficients (r := r) (n := 1) (by
    intro m hm
    obtain ⟨hm, hpower⟩ := List.mem_filter.mp hm
    exact ⟨(hkind m hm).1, eq_of_beq hpower, (hkind m hm).2⟩) hz
  have hfound : (first :: rest).any (fun m => m.timePower == 0 || m.timePower == 1) = true := by
    refine List.any_eq_true.mpr ⟨first, List.mem_cons_self, ?_⟩
    rcases h first List.mem_cons_self with hkind | hkind
    · simp [hkind.timePower]
    · simp [hkind.timePower]
  refine ⟨.critical c₁ c₂ (-r), ?_, ?_⟩
  · simp only [critical, hstill, hrate, Option.map_some, orDefault_some, hfirst.1, real_neg, hsame,
      hfound, amplitudes_true, hc₁, hc₂]
    rfl
  · rw [Coefficients.motion, neg_neg]
    ring

/-- A missing second exponential has the coefficient zero and a default rate. -/
theorem overdamped_of_one (defaults : TextDefaults ℝ) {c₁ r₁ : ℝ}
    (h : exponentials ts = [⟨real r₁, real c₁⟩]) : ∃ rate, (overdamped defaults.exact ts).1 =
      (Coefficients.overdamped c₁ 0 r₁ rate).exact := by
  rw [exponentials] at h
  simp only [overdamped, h]
  by_cases hsame : sameRate (real r₁) (real (-defaults.secondOverdampedRate)) = true
  · refine ⟨-defaults.firstOverdampedRate, ?_⟩
    simp [amplitudes, Coefficients.exact, TextDefaults.exact, hsame]
  · refine ⟨-defaults.secondOverdampedRate, ?_⟩
    simp [amplitudes, Coefficients.exact, TextDefaults.exact, hsame]

theorem overdamped_motion (hfit : Regime.overdamped.Fits ts) (hne : ts ≠ [])
    (hx : sumValue ts (real t) = real x) :
    ∃ k : Coefficients ℝ, (overdamped defaults.exact ts).1 = k.exact ∧ k.motion t = x := by
  obtain ⟨r₁, r₂, hr₁, hr₂, hhead, h⟩ := hfit
  have hdecaying : exponentials ts = ts.foldl addExponential [] := by
    rw [exponentials]
    refine congrArg _ (List.filter_eq_self.mpr fun m hm => ?_)
    rcases h m hm with hkind | ⟨hkind, -⟩
    · simp [hkind.rate, hkind.timePower, hkind.oscillation, hr₁]
    · simp [hkind.rate, hkind.timePower, hkind.oscillation, hr₂]
  obtain ⟨first, rest, rfl⟩ := List.exists_cons_of_ne_nil hne
  obtain ⟨y, z, hy, hz, rfl⟩ := sumValue_cons_eq_real.mp hx
  have hfirst := hhead first rfl
  obtain ⟨c, hc, rfl⟩ := hfirst.value_eq hy
  have hstart : addExponential [] first = [⟨real r₁, real c⟩] := by
    rw [← hfirst.rate, ← hc]
    rfl
  have hall : AddUp r₁ r₂ t (exponentials (first :: rest)) (c * Real.exp (r₁ * t) + z) := by
    rw [hdecaying, List.foldl_cons, hstart]
    exact (AddUp.one c).foldl (fun m hm => h m (List.mem_cons_of_mem first hm)) hz
  rw [pow_zero, mul_one]
  -- Either the first exponential is the only one, or a second was told apart from it.
  generalize hfound : exponentials (first :: rest) = found at hall
  generalize hsum : c * Real.exp (r₁ * t) + z = total at hall ⊢
  cases hall with
  | one c₁ =>
    obtain ⟨rate, hrate⟩ := overdamped_of_one defaults hfound
    refine ⟨.overdamped c₁ 0 r₁ rate, hrate, ?_⟩
    rw [Coefficients.motion, zero_mul, add_zero]
  | two c₁ c₂ => exact ⟨.overdamped c₁ c₂ r₁ r₂, congrArg Prod.fst (overdamped_of_two hfound), rfl⟩

theorem coefficients_motion (defaults : TextDefaults ℝ) {regime : Regime} (hfit : regime.Fits ts) (hne : ts ≠ [])
    (hx : sumValue ts (real t) = real x) :
    ∃ k : Coefficients ℝ, (coefficients regime defaults.exact ts).1 = k.exact ∧ k.motion t = x := by
  cases regime with
  | undamped => exact undamped_motion hfit hne hx
  | underdamped => exact underdamped_motion hfit hne hx
  | forced => exact forced_motion hfit hx
  | critical => exact critical_motion hfit hne hx
  | overdamped => exact overdamped_motion hfit hne hx

/-- The constants read from a text that is a sum of its regime's kind make the motion that the text
says, at every time at which the text has a value. The symbols that cancel in it may have any. -/
theorem resolve_value_of_fits {text : String} {e : Expr Exact} {regime : Regime}
    (hp : Expr.parse (rightHandSide text) = .ok e) (he : e.expand = .ok ts) (hne : ts ≠ [])
    (hs : ∀ m ∈ ts, m.symbols = []) (hfit : regime.Fits ts)
    (properties : Option (Properties Exact)) (defaults : TextDefaults ℝ) {σ : String → Exact}
    (hx : e.value σ (real t) = real x) :
    (resolve regime text properties defaults.exact).coefficients.value (real t) = real x := by
  have hσ : HasUnitSymbols σ ts := by
    intro m hm s hsym
    rw [hs m hm] at hsym
    cases hsym
  obtain ⟨k, hk, hmotion⟩ := coefficients_motion defaults hfit hne
    (Expr.expand_sumValue he hσ hx)
  have hcoefficients : (resolve regime text properties defaults.exact).coefficients = k.exact := by
    rw [← hk, ← map_substitute_eq_self defaults.exact.placeholder hs,
      ← readTerms_of_expand hp he]
    rfl
  rw [hcoefficients, k.draws_motion t, hmotion]

def plainDefaults : TextDefaults ℝ := ⟨1.0, 0.2, 0.5, 1.0, 3.0, 1.0, 0.5, 2.0⟩

theorem fits_cosine : Regime.undamped.Fits [.oscillating (real 1) .cosine (real 1)] := by
  refine ⟨1, fun m hm => ?_⟩
  rw [List.mem_singleton.mp hm]
  exact ⟨zero_eq, rfl, .cosine, rfl⟩

theorem resolve_value_of_fits_cancelling :
    Expr.cancelling.value (fun _ => real 1) (real 2) = real (Real.cos 2) ∧
      (resolve .undamped cancellingText none plainDefaults.exact).coefficients.value (real 2) =
        real (Real.cos 2) := by
  have hx : Expr.cancelling.value (fun _ => real 1) (real 2) = real (Real.cos 2) := by
    have htwo : Real.cos 2 * 2 / 2 = Real.cos 2 := by ring
    simp [Expr.cancelling, Expr.value, Op.apply, Func.apply, real_div, htwo]
  have hp : Expr.parse (rightHandSide cancellingText) = .ok Expr.cancelling := by
    rw [rightHandSide_cancellingText, Expr.parse_cancellingText]
  refine ⟨hx, resolve_value_of_fits hp Expr.expand_cancelling (by simp) ?_ fits_cosine none
    plainDefaults hx⟩
  intro m hm
  rw [List.mem_singleton.mp hm]
  rfl

/-- At time zero the text divides by zero, but the cosine that is read from it starts at one. -/
theorem resolve_value_cancelling_zero :
    Expr.parse (rightHandSide cancellingText) = .ok Expr.cancelling ∧
      Expr.cancelling.expand = .ok [.oscillating (real 1) .cosine (real 1)] ∧
      Regime.undamped.Fits [.oscillating (real 1) .cosine (real 1)] ∧
      Expr.cancelling.value (fun _ => real 1) (real 0) = undefined ∧
      (resolve .undamped cancellingText none plainDefaults.exact).coefficients.value (real 0) =
        real 1 ∧
      ¬∀ t : ℝ,
        (resolve .undamped cancellingText none plainDefaults.exact).coefficients.value (real t) =
          Expr.cancelling.value (fun _ => real 1) (real t) := by
  have htext : Expr.cancelling.value (fun _ => real 1) (real 0) = undefined := by
    simp [Expr.cancelling, Expr.value, Op.apply, Func.apply]
  have hform :
      (resolve .undamped cancellingText none plainDefaults.exact).coefficients.value (real 0) =
        real 1 := by
    rw [(resolve_cancellingText none _).1]
    simp [Coefficients.value]
  refine ⟨?_, Expr.expand_cancelling, fits_cosine, htext, hform, fun h => ?_⟩
  · rw [rightHandSide_cancellingText, Expr.parse_cancellingText]
  · have hzero := h 0
    rw [htext, hform] at hzero
    cases hzero

end Textual

end Oscillator
