import Oscillator.Proofs.Motion.Spring

/-! # Reported properties beside computed ones

A usable property that is reported takes the place of the computed one, and the others are kept as they are.
Frequency, rate and ratio are therefore only tied together where the reported values agree with those that
are kept beside them. What follows from them is computed anew, and a damped oscillation is only derived below
critical damping; a reported one is shown whatever the damping ratio is.
-/
namespace Oscillator

namespace Characteristics

theorem positive?_real {x : ℝ} (h : 0 < x) : positive? (some (.real (Exact.real x))) = some (.real x) := by
  simp [positive?, Property.realPart, h]

theorem nonnegative?_real {x : ℝ} (h : 0 ≤ x) :
    nonnegative? (some (.real (Exact.real x))) = some (.real x) := by
  simp [nonnegative?, Property.realPart, Option.filter_some, h]

/-- A usable value is a number, and so is what stands in for one that is not usable. -/
theorem exists_filter_getD {q : Option Exact} {r : Exact → Prop} [DecidablePred r] {y : ℝ}
    (hy : r (.real y)) : ∃ x : ℝ,
      (q.filter fun x => Arithmetic.isFinite x && decide (r x)).getD (.real y) = .real x ∧ r (.real x) := by
  cases h : q.filter fun x => Arithmetic.isFinite x && decide (r x) with
  | none => exact ⟨y, rfl, hy⟩
  | some x =>
    obtain ⟨hfinite, hx⟩ := Bool.and_eq_true_iff.mp (Option.filter_eq_some_iff.mp h).2
    obtain ⟨x, rfl⟩ := Exact.isFinite_iff.mp hfinite
    exact ⟨x, rfl, of_decide_eq_true hx⟩

theorem exists_positive?_getD (p : Option (Property Exact)) {y : ℝ} (hy : 0 < y) :
    ∃ x : ℝ, (positive? p).getD (.real y) = .real x ∧ 0 < x := by
  obtain ⟨x, hx, hpos⟩ := exists_filter_getD (q := p.map (·.realPart)) (r := fun x => 0 < x)
    (show 0 < Exact.real y by simpa using hy)
  exact ⟨x, hx, by simpa using hpos⟩

theorem exists_nonnegative?_getD (p : Option (Property Exact)) {y : ℝ} (hy : 0 ≤ y) :
    ∃ x : ℝ, (nonnegative? p).getD (.real y) = .real x ∧ 0 ≤ x := by
  obtain ⟨x, hx, hpos⟩ := exists_filter_getD (q := p.map (·.realPart)) (r := fun x => 0 ≤ x)
    (show 0 ≤ Exact.real y by simpa using hy)
  exact ⟨x, hx, by simpa using hpos⟩

/-- What is reported for display only is not part of the rates. -/
theorem mergedWith_eq_ofRates (c : Characteristics Exact) {p : Properties Exact}
    (hperiod : positive? p.dampedPeriod = none) (hdecrement : nonnegative? p.logarithmicDecrement = none) :
    c.mergedWith (some p) =
      ofRates ((positive? p.naturalFrequency).getD c.naturalFrequency)
        ((nonnegative? p.dampingCoefficient).getD c.decayRate)
        ((nonnegative? p.dampingRatio).getD c.dampingRatio) (positive? p.dampedFrequency) := by
  simp only [mergedWith, withReported, hperiod, hdecrement]
  rfl

end Characteristics

open Characteristics

/-- Reported values agree with those of the spring that they stand beside: a rate with the kept ratio, a
ratio with the kept rate, and a frequency alone with both. -/
structure Properties.Agree (p : Properties Exact) (o : Spring) (omega : ℝ) : Prop where
  rate : ∀ a, nonnegative? p.dampingCoefficient = some (.real a) → a = o.ratio * omega
  ratio : ∀ z, nonnegative? p.dampingRatio = some (.real z) → z * omega = o.rate
  frequency : nonnegative? p.dampingCoefficient = none → nonnegative? p.dampingRatio = none →
    omega = o.frequency ∨ o.damping = 0

namespace Spring

variable {o : Spring} {p : Properties Exact} {omega alpha zeta : ℝ}

theorem ratio_eq_zero_iff : o.ratio = 0 ↔ o.damping = 0 := by
  have hroot : 2 * √(o.stiffness * o.mass) ≠ 0 := by
    have := Real.sqrt_pos.mpr (mul_pos o.stiffness_pos o.mass_pos)
    positivity
  rw [ratio, div_eq_zero_iff, or_iff_left hroot]

/-- Where rate and ratio are not both reported, they are tied together just where the reported values
agree with the kept ones. -/
theorem rate_eq_iff_agree
    (hone : nonnegative? p.dampingCoefficient = none ∨ nonnegative? p.dampingRatio = none)
    (halpha : (nonnegative? p.dampingCoefficient).getD (.real o.rate) = .real alpha)
    (hzeta : (nonnegative? p.dampingRatio).getD (.real o.ratio) = .real zeta) :
    alpha = zeta * omega ↔ p.Agree o omega := by
  cases hr : nonnegative? p.dampingCoefficient with
  | some a =>
    have hz := hone.resolve_left (by simp [hr])
    rw [hr] at halpha
    rw [hz] at hzeta
    obtain rfl : a = .real alpha := halpha
    obtain rfl : o.ratio = zeta := Exact.real.inj hzeta
    refine ⟨fun h => ⟨?_, ?_, ?_⟩, fun h => h.rate alpha hr⟩
    · intro a ha
      cases hr.symm.trans ha
      exact h
    · simp [hz]
    · simp [hr]
  | none =>
    rw [hr] at halpha
    obtain rfl : o.rate = alpha := Exact.real.inj halpha
    cases hz : nonnegative? p.dampingRatio with
    | some z =>
      rw [hz] at hzeta
      obtain rfl : z = .real zeta := hzeta
      refine ⟨fun h => ⟨?_, ?_, ?_⟩, fun h => (h.ratio zeta hz).symm⟩
      · simp [hr]
      · intro z hz'
        cases hz.symm.trans hz'
        exact h.symm
      · simp [hz]
    | none =>
      rw [hz] at hzeta
      obtain rfl : o.ratio = zeta := Exact.real.inj hzeta
      have htie : o.rate = o.ratio * omega ↔ omega = o.frequency ∨ o.damping = 0 := by
        rw [← o.frequency_mul_ratio, mul_comm, mul_eq_mul_left_iff, ratio_eq_zero_iff, eq_comm]
      exact htie.trans ⟨fun h => ⟨by simp [hr], by simp [hz], fun _ _ => h⟩, fun h => h.frequency hr hz⟩

end Spring

namespace Characteristics

section

variable {α : Type} [Arithmetic α] {naturalFrequency decayRate dampingRatio : α} {dampedFrequency : Option α}

/-- Period and decrement come with a damped frequency, reported or derived. -/
theorem ofRates_isSome :
    let c := ofRates naturalFrequency decayRate dampingRatio dampedFrequency
    c.dampedPeriod.isSome = c.dampedFrequency.isSome ∧ c.logarithmicDecrement.isSome = c.dampedFrequency.isSome := by
  simp [ofRates]

theorem ofRates_dampedFrequency :
    (ofRates naturalFrequency decayRate dampingRatio dampedFrequency).dampedFrequency =
      (dampedFrequency <|> (ofRates naturalFrequency decayRate dampingRatio none).dampedFrequency) := rfl

end

/-- A damped frequency is there if it is reported or the ratio, and the rate, are below their bounds. -/
theorem ofRates_dampedFrequency_isSome_iff {omega alpha zeta : ℝ} (homega : 0 ≤ omega) (halpha : 0 ≤ alpha)
    {reported : Option Exact} :
    (ofRates (Exact.real omega) (.real alpha) (.real zeta) reported).dampedFrequency.isSome ↔
      reported.isSome ∨ zeta < 1 ∧ alpha < omega := by
  have hderived : (ofRates (Exact.real omega) (.real alpha) (.real zeta) none).dampedFrequency.isSome ↔
      zeta < 1 ∧ alpha < omega := by
    rw [← sq_lt_sq₀ halpha homega]
    by_cases hlt : zeta < 1 ∧ alpha ^ 2 < omega ^ 2
    · obtain ⟨omegaD, -, -, hw, -, -⟩ := ofRates_of_lt hlt.1 hlt.2
      simp [hw, hlt]
    · simp [(ofRates_of_not hlt).1, hlt]
  rw [ofRates_dampedFrequency, ← hderived]
  cases reported <;> simp

end Characteristics

/-- Beside the reported values, what is not reported is kept. Rate, ratio and frequency are tied together just
where these agree. A damped oscillation, with its period and decrement, is shown where its frequency is
reported, and is otherwise derived below critical damping only, if its frequency is a real number. -/
theorem Characteristics.mergedWith_rate_eq_iff {s : System Exact} {o : Spring} (h : s.HasConstants o)
    {p : Properties Exact}
    (hone : nonnegative? p.dampingCoefficient = none ∨ nonnegative? p.dampingRatio = none)
    (hperiod : positive? p.dampedPeriod = none) (hdecrement : nonnegative? p.logarithmicDecrement = none) :
    let c := (ofSystem s).mergedWith (some p)
    ∃ omega alpha zeta : ℝ, c.naturalFrequency = .real omega ∧ c.decayRate = .real alpha ∧
      c.dampingRatio = .real zeta ∧
      (positive? p.naturalFrequency).getD (.real o.frequency) = .real omega ∧
      (nonnegative? p.dampingCoefficient).getD (.real o.rate) = .real alpha ∧
      (nonnegative? p.dampingRatio).getD (.real o.ratio) = .real zeta ∧
      (alpha = zeta * omega ↔ p.Agree o omega) ∧
      (c.dampedFrequency.isSome ↔ (positive? p.dampedFrequency).isSome ∨ zeta < 1 ∧ alpha < omega) ∧
      (c.dampedPeriod.isSome ↔ (positive? p.dampedFrequency).isSome ∨ zeta < 1 ∧ alpha < omega) ∧
      (c.logarithmicDecrement.isSome ↔ (positive? p.dampedFrequency).isSome ∨ zeta < 1 ∧ alpha < omega) := by
  intro c
  obtain ⟨omega, homega, hpos⟩ := exists_positive?_getD p.naturalFrequency o.frequency_pos
  obtain ⟨alpha, halpha, hrate⟩ := exists_nonnegative?_getD p.dampingCoefficient o.rate_nonneg
  obtain ⟨zeta, hzeta, -⟩ := exists_nonnegative?_getD p.dampingRatio o.ratio_nonneg
  have hc : c = ofRates (.real omega) (.real alpha) (.real zeta) (positive? p.dampedFrequency) := by
    rw [show c = _ from mergedWith_eq_ofRates _ hperiod hdecrement, h.naturalFrequency, h.decayRate,
      h.dampingRatio, homega, halpha, hzeta]
  have hshown : c.dampedFrequency.isSome ↔ (positive? p.dampedFrequency).isSome ∨ zeta < 1 ∧ alpha < omega := by
    rw [hc]
    exact ofRates_dampedFrequency_isSome_iff hpos.le hrate
  refine ⟨omega, alpha, zeta, by rw [hc]; rfl, by rw [hc]; rfl, by rw [hc]; rfl, homega, halpha, hzeta,
    Spring.rate_eq_iff_agree hone halpha hzeta, ?_⟩
  have hall : c.dampedPeriod.isSome = c.dampedFrequency.isSome ∧
      c.logarithmicDecrement.isSome = c.dampedFrequency.isSome := by
    rw [hc]
    exact ofRates_isSome
  rw [hall.1, hall.2]
  exact ⟨hshown, hshown, hshown⟩

/-- Twice the frequency and half the ratio are reported, which suits the rate. -/
theorem Characteristics.mergedWith_rate_eq_iff_doubled :
    let p : Properties Exact := ⟨some (.real (.real 2)), none, none, some (.real (.real 0.25)), none, none⟩
    let c := (ofSystem (System.unit 1)).mergedWith (some p)
    p.Agree (Spring.unit 1 zero_le_one) 2 ∧ c.decayRate = c.dampingRatio * c.naturalFrequency ∧
      c.dampedFrequency.isSome := by
  intro p c
  obtain ⟨omega, alpha, zeta, hw, ha, hz, homega, halpha, hzeta, hiff, hd, -⟩ :=
    Characteristics.mergedWith_rate_eq_iff (System.unit_hasConstants zero_le_one) (p := p) (.inl rfl) rfl rfl
  rw [positive?_real two_pos] at homega
  rw [nonnegative?_real (by norm_num)] at hzeta
  obtain rfl : 2 = omega := Exact.real.inj homega
  obtain rfl : 0.25 = zeta := Exact.real.inj hzeta
  have hrate : alpha = 1 / 2 := by
    rw [← Exact.real.inj halpha, Spring.unit_rate]
  have htie : alpha = 0.25 * 2 := by
    rw [hrate]
    norm_num
  refine ⟨hiff.mp htie, ?_, hd.mpr (.inr ⟨by norm_num, by rw [hrate]; norm_num⟩)⟩
  rw [ha, hz, hw, htie, Exact.real_mul]

/-- A damped frequency is reported for an overdamped system, and the oscillation is shown. -/
theorem Characteristics.mergedWith_overdamped_oscillates :
    let c := (ofSystem (System.unit 4)).mergedWith
      (some ⟨none, none, some (.real (.real 3)), none, none, none⟩)
    c.dampingRatio = .real 2 ∧ c.dampedFrequency = some (.real 3) ∧ c.dampedPeriod.isSome ∧
      c.logarithmicDecrement.isSome := by
  intro c
  have hd : c.dampedFrequency = some (.real 3) := by
    change (positive? (some (.real (Exact.real 3))) <|> _) = _
    rw [positive?_real three_pos]
    rfl
  have hc : c = ofRates _ _ _ _ := mergedWith_eq_ofRates _ rfl rfl
  have hshown : c.dampedFrequency.isSome := by
    rw [hd]
    rfl
  refine ⟨?_, hd, ?_, ?_⟩
  · exact (System.unit_hasConstants (by norm_num)).dampingRatio.trans (by rw [Spring.unit_ratio]; norm_num)
  · rw [hc, ofRates_isSome.1, ← hc]
    exact hshown
  · rw [hc, ofRates_isSome.2, ← hc]
    exact hshown

end Oscillator
