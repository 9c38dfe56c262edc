import Oscillator.Proofs.Reading.Unreported

/-! # Terms gathered by kind

A reader goes through the terms of one kind and adds their coefficients up. At a fixed time each of
these sums is compared with the sum of the values of the same terms, so that a term which was lost,
counted twice or taken for a term of another kind would show.
-/
namespace Oscillator

open Exact

variable {t x : ℝ}

namespace Monomial

/-- A wave of a frequency that decays or grows with a rate. -/
structure IsWave (m : Monomial Exact) (rate frequency : ℝ) : Prop where
  rate : m.rate = real rate
  timePower : m.timePower = 0
  oscillation : ∃ wave, m.oscillation = some ⟨wave, real frequency⟩

/-- A power of time that decays or grows with a rate. -/
structure IsPower (m : Monomial Exact) (rate : ℝ) (power : ℕ) : Prop where
  rate : m.rate = real rate
  timePower : m.timePower = power
  oscillation : m.oscillation = none

variable {m : Monomial Exact} {ts : List (Monomial Exact)} {r w : ℝ} {n : ℕ}

theorem IsWave.value_eq (h : m.IsWave r w) (hx : m.value (real t) = real x) :
    ∃ wave c, m.oscillation = some ⟨wave, real w⟩ ∧ m.coefficient = real c ∧
      x = Real.exp (r * t) * (c * wave.function (w * t)) := by
  obtain ⟨hr, hn, wave, ho⟩ := h
  obtain ⟨c, _, _, hc, hr', hw, -, rfl⟩ := value_eq_real.mp hx
  rw [hr] at hr'
  cases hr'
  rw [ho] at hw
  refine ⟨wave, c, ho, hc, ?_⟩
  cases wave <;>
  · cases hw
    rw [hn, zpow_zero, Wave.function]
    ring

theorem IsPower.value_eq (h : m.IsPower r n) (hx : m.value (real t) = real x) :
    ∃ c, m.coefficient = real c ∧ x = c * t ^ n * Real.exp (r * t) := by
  obtain ⟨hr, hn, ho⟩ := h
  obtain ⟨c, _, _, hc, hr', hw, -, rfl⟩ := value_eq_real.mp hx
  rw [hr] at hr'
  cases hr'
  rw [ho, Oscillation.factor, one_eq] at hw
  cases hw
  exact ⟨c, hc, by rw [hn, zpow_natCast, mul_one]⟩

/-- The terms that pass a test and those that fail make up the whole sum. -/
theorem sumValue_filter (p : Monomial Exact → Bool) (hx : sumValue ts (real t) = real x) :
    ∃ y z, sumValue (ts.filter p) (real t) = real y ∧
      sumValue (ts.filter fun m => !p m) (real t) = real z ∧ y + z = x := by
  induction ts generalizing x with
  | nil => exact ⟨0, x, sumValue_nil, hx, zero_add x⟩
  | cons m ts ih =>
    obtain ⟨v, u, hm, hts, rfl⟩ := sumValue_cons_eq_real.mp hx
    obtain ⟨y, z, hy, hz, rfl⟩ := ih hts
    cases hp : p m with
    | true =>
      rw [List.filter_cons_of_pos hp, List.filter_cons_of_neg (by simp [hp])]
      exact ⟨v + y, z, sumValue_cons_eq_real.mpr ⟨v, y, hm, hy, rfl⟩, hz, by ring⟩
    | false =>
      rw [List.filter_cons_of_neg (by simp [hp]), List.filter_cons_of_pos (by simp [hp])]
      exact ⟨y, v + z, hy, sumValue_cons_eq_real.mpr ⟨v, z, hm, hz, rfl⟩, by ring⟩

/-- Terms that differ in nothing but their coefficients. -/
theorem foldl_coefficients (h : ∀ m ∈ ts, m.IsPower r n) (hx : sumValue ts (real t) = real x)
    (a : ℝ) : ∃ c, (ts.map (·.coefficient)).foldl (· + ·) (real a) = real c ∧
      c * t ^ n * Real.exp (r * t) = a * t ^ n * Real.exp (r * t) + x := by
  induction ts generalizing a x with
  | nil =>
    rw [sumValue_nil] at hx
    cases hx
    exact ⟨a, rfl, (add_zero _).symm⟩
  | cons m ts ih =>
    obtain ⟨y, z, hm, hts, rfl⟩ := sumValue_cons_eq_real.mp hx
    obtain ⟨d, hd, rfl⟩ := (h m List.mem_cons_self).value_eq hm
    obtain ⟨c, hc, hsum⟩ := ih (fun b hb => h b (List.mem_cons_of_mem m hb)) hts (a + d)
    refine ⟨c, ?_, by rw [hsum]; ring⟩
    rw [List.map_cons, List.foldl_cons, hd]
    exact hc

theorem sum_coefficients (h : ∀ m ∈ ts, m.IsPower r n) (hx : sumValue ts (real t) = real x) :
    ∃ c, (ts.map (·.coefficient)).foldl (· + ·) 0 = real c ∧ c * t ^ n * Real.exp (r * t) = x := by
  obtain ⟨c, hc, hsum⟩ := foldl_coefficients h hx 0
  rw [zero_eq]
  exact ⟨c, hc, by rw [hsum]; ring⟩

end Monomial

open Monomial

namespace Textual

variable {m : Monomial Exact} {ts : List (Monomial Exact)} {r w c s : ℝ}

namespace Waves

/-- Some waves of a frequency, with the sums of their coefficients. -/
def gathered (w c s : ℝ) : Waves Exact := ⟨some (real w), real c, real s, true⟩

theorem add_of_isNone {ws : Waves Exact} (h : m.oscillation.isSome = false) : ws.add m = ws := by
  rw [Option.isSome_eq_false_iff, Option.isNone_iff_eq_none] at h
  rw [add, h]

theorem ofTerms_filter_isSome :
    ofTerms (ts.filter (·.oscillation.isSome)) = ofTerms ts := by
  -- The waves gathered so far may be any.
  suffices h : ∀ ws : Waves Exact,
      (ts.filter (·.oscillation.isSome)).foldl add ws = ts.foldl add ws from h _
  intro ws
  induction ts generalizing ws with
  | nil => rfl
  | cons m ts ih =>
    rw [List.filter_cons, List.foldl_cons]
    cases hm : m.oscillation.isSome with
    | true => rw [if_pos rfl, List.foldl_cons, ih]
    | false => rw [if_neg Bool.false_ne_true, add_of_isNone hm, ih]

/-- A wave of the frequency met so far, or of the first one, is added to its own sum. -/
theorem add_wave (t c s : ℝ) (frequency : Option Exact) (hf : frequency.getD (real w) = real w) (found : Bool)
    {wave : Wave} {d : ℝ} (ho : m.oscillation = some ⟨wave, real w⟩) (hd : m.coefficient = real d) :
    ∃ c' s', add ⟨frequency, real c, real s, found⟩ m = gathered w c' s' ∧
      c' * Real.cos (w * t) + s' * Real.sin (w * t) =
        c * Real.cos (w * t) + s * Real.sin (w * t) + d * wave.function (w * t) := by
  cases wave with
  | cosine =>
    refine ⟨c + d, s, ?_, by rw [Wave.function]; ring⟩
    simp only [add, ho, hf, sameRate_self, hd, real_add, if_true, gathered]
  | sine =>
    refine ⟨c, s + d, ?_, by rw [Wave.function]; ring⟩
    simp only [add, ho, hf, sameRate_self, hd, real_add, if_true, gathered]

theorem foldl_gathered (h : ∀ m ∈ ts, m.IsWave r w) (hx : sumValue ts (real t) = real x) :
    ∃ c' s', ts.foldl add (gathered w c s) = gathered w c' s' ∧
      Real.exp (r * t) * (c' * Real.cos (w * t) + s' * Real.sin (w * t)) =
        Real.exp (r * t) * (c * Real.cos (w * t) + s * Real.sin (w * t)) + x := by
  induction ts generalizing c s x with
  | nil =>
    rw [sumValue_nil] at hx
    cases hx
    exact ⟨c, s, rfl, (add_zero _).symm⟩
  | cons m ts ih =>
    obtain ⟨y, z, hm, hts, rfl⟩ := sumValue_cons_eq_real.mp hx
    obtain ⟨wave, d, ho, hd, rfl⟩ := (h m List.mem_cons_self).value_eq hm
    obtain ⟨c₁, s₁, hadd, hfirst⟩ := add_wave t c s (some (real w)) rfl true ho hd
    obtain ⟨c', s', hfold, hsum⟩ := ih (fun b hb => h b (List.mem_cons_of_mem m hb)) hts
    refine ⟨c', s', ?_, ?_⟩
    · rw [List.foldl_cons, gathered, hadd, hfold]
    · rw [hsum, hfirst]
      ring

/-- The waves of one frequency, where there is any. -/
theorem ofTerms_waves (h : ∀ m ∈ ts, m.IsWave r w) (hx : sumValue ts (real t) = real x)
    (hne : ts ≠ []) : ∃ c s, ofTerms ts = gathered w c s ∧
      Real.exp (r * t) * (c * Real.cos (w * t) + s * Real.sin (w * t)) = x := by
  cases ts with
  | nil => exact absurd rfl hne
  | cons m ts =>
    obtain ⟨y, z, hm, hts, rfl⟩ := sumValue_cons_eq_real.mp hx
    obtain ⟨wave, d, ho, hd, rfl⟩ := (h m List.mem_cons_self).value_eq hm
    obtain ⟨c₁, s₁, hadd, hfirst⟩ := add_wave t 0 0 .none rfl false ho hd
    obtain ⟨c, s, hfold, hsum⟩ := foldl_gathered (fun b hb => h b (List.mem_cons_of_mem m hb)) hts
    refine ⟨c, s, ?_, ?_⟩
    · rw [ofTerms, List.foldl_cons, none, zero_eq, hadd, hfold]
    · rw [hsum, hfirst]
      ring

end Waves

/-- Exponentials found so far, the first of the rate `r₁` and a second of the rate `r₂`, and what they
add up to at a time. -/
inductive AddUp (r₁ r₂ t : ℝ) : List (Exponential Exact) → ℝ → Prop
  | one (c : ℝ) : AddUp r₁ r₂ t [⟨real r₁, real c⟩] (c * Real.exp (r₁ * t))
  | two (c d : ℝ) : AddUp r₁ r₂ t [⟨real r₁, real c⟩, ⟨real r₂, real d⟩]
      (c * Real.exp (r₁ * t) + d * Real.exp (r₂ * t))

variable {r₁ r₂ y z : ℝ} {found : List (Exponential Exact)}

theorem AddUp.add_first (h : AddUp r₁ r₂ t found y) (hm : m.IsPower r₁ 0)
    (hz : m.value (real t) = real z) : AddUp r₁ r₂ t (addExponential found m) (y + z) := by
  obtain ⟨e, he, rfl⟩ := hm.value_eq hz
  cases h with
  | one c =>
    have hfound : addExponential [⟨real r₁, real c⟩] m = [⟨real r₁, real (c + e)⟩] := by
      simp [addExponential, hm.rate, he, List.findIdx?_cons]
    rw [hfound, pow_zero, mul_one, ← add_mul]
    exact .one (c + e)
  | two c d =>
    have hfound : addExponential [⟨real r₁, real c⟩, ⟨real r₂, real d⟩] m =
        [⟨real r₁, real (c + e)⟩, ⟨real r₂, real d⟩] := by
      simp [addExponential, hm.rate, he, List.findIdx?_cons]
    rw [hfound, pow_zero, mul_one, add_right_comm, ← add_mul]
    exact .two (c + e) d

theorem AddUp.add_second (h : AddUp r₁ r₂ t found y) (hm : m.IsPower r₂ 0)
    (hapart : sameRate (real r₁) (real r₂) = false) (hz : m.value (real t) = real z) :
    AddUp r₁ r₂ t (addExponential found m) (y + z) := by
  obtain ⟨e, he, rfl⟩ := hm.value_eq hz
  cases h with
  | one c =>
    have hfound : addExponential [⟨real r₁, real c⟩] m =
        [⟨real r₁, real c⟩, ⟨real r₂, real e⟩] := by
      simp [addExponential, hm.rate, he, List.findIdx?_cons, hapart]
    rw [hfound, pow_zero, mul_one]
    exact .two c e
  | two c d =>
    have hfound : addExponential [⟨real r₁, real c⟩, ⟨real r₂, real d⟩] m =
        [⟨real r₁, real c⟩, ⟨real r₂, real (d + e)⟩] := by
      simp [addExponential, hm.rate, he, List.findIdx?_cons, hapart]
    rw [hfound, pow_zero, mul_one, add_assoc, ← add_mul]
    exact .two c (d + e)

/-- Every term goes to the exponential of its own rate, in whatever order the terms come. -/
theorem AddUp.foldl (h : AddUp r₁ r₂ t found y) (hts : ∀ m ∈ ts, m.IsPower r₁ 0 ∨
      m.IsPower r₂ 0 ∧ sameRate (real r₁) (real r₂) = false)
    (hx : sumValue ts (real t) = real x) : AddUp r₁ r₂ t (ts.foldl addExponential found) (y + x) := by
  induction ts generalizing found x y with
  | nil =>
    rw [sumValue_nil] at hx
    cases hx
    rwa [add_zero]
  | cons m ts ih =>
    obtain ⟨v, u, hm, hrest, rfl⟩ := sumValue_cons_eq_real.mp hx
    have hstep : AddUp r₁ r₂ t (addExponential found m) (y + v) := by
      rcases hts m List.mem_cons_self with hkind | ⟨hkind, hapart⟩
      · exact h.add_first hkind hm
      · exact h.add_second hkind hapart hm
    rw [List.foldl_cons, ← add_assoc]
    exact ih hstep (fun b hb => hts b (List.mem_cons_of_mem m hb)) hrest

end Textual

end Oscillator
