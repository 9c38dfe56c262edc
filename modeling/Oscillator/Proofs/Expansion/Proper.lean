import Oscillator.Proofs.Expansion.Linear
import Oscillator.Proofs.Expansion.Symbols

/-! # Proper terms

A term that an expansion leaves is not zero, its wave has a positive frequency, and its symbols are other
names than those of time and of Euler's number. Where a frequency is no number, because the slope of an
argument is none, neither is the coefficient.
-/
namespace Oscillator

open Exact Monomial

/-- If a slope is no number, neither is the intercept. -/
def Linear.IsProper (p : Linear Exact) : Prop := p.slope = undefined → p.intercept = undefined

/-- The frequency of a wave is positive, or it is no number and neither is the coefficient. -/
def Monomial.HasProperWave (m : Monomial Exact) : Prop :=
  ∀ o ∈ m.oscillation, (∃ w : ℝ, o.frequency = real w ∧ 0 < w) ∨
    o.frequency = undefined ∧ m.coefficient = undefined

/-- A term as an expansion leaves it. -/
structure Monomial.IsProper (m : Monomial Exact) : Prop where
  coefficient : m.coefficient ≠ 0
  wave : m.HasProperWave
  time : Expr.timeName ∉ m.symbols
  euler : Expr.eulerName ∉ m.symbols

namespace Exact

variable {a b : Exact}

theorem add_eq_undefined : a + b = undefined ↔ a = undefined ∨ b = undefined := by
  cases a <;> cases b <;> simp

theorem sub_eq_undefined : a - b = undefined ↔ a = undefined ∨ b = undefined := by
  cases a <;> cases b <;> simp

theorem mul_eq_undefined : a * b = undefined ↔ a = undefined ∨ b = undefined := by
  cases a <;> cases b <;> simp

theorem neg_eq_undefined : -a = undefined ↔ a = undefined := by cases a <;> simp

theorem div_eq_undefined (hb : b ≠ 0) : a / b = undefined ↔ a = undefined ∨ b = undefined := by
  cases a with
  | undefined => simp
  | real x =>
    cases b with
    | undefined => simp
    | real y =>
      have hy : y ≠ 0 := fun hy => hb (by rw [hy, zero_eq])
      simp [real_div hy]

end Exact

namespace Linear

variable {p q r : Linear Exact}

theorem isProper_constant (x : Exact) : (constant x).IsProper := by
  intro h
  cases h

theorem IsProper.negate (hp : p.IsProper) : p.negate.IsProper := fun h =>
  neg_eq_undefined.mpr (hp (neg_eq_undefined.mp h))

/-- A result of two readings has an intercept only if both have one, and the slopes where they count. -/
theorem IsProper.combine? {op : Op} (hp : p.IsProper) (hq : q.IsProper)
    (h : combine? op p q = some r) : r.IsProper := by
  cases op with
  | add =>
    cases h
    exact fun hr => add_eq_undefined.mpr ((add_eq_undefined.mp hr).imp hp hq)
  | sub =>
    cases h
    exact fun hr => sub_eq_undefined.mpr ((sub_eq_undefined.mp hr).imp hp hq)
  | mul =>
    rw [Linear.combine?] at h
    split_ifs at h
    · cases h
      exact fun hr => mul_eq_undefined.mpr ((mul_eq_undefined.mp hr).imp_right hq)
    · cases h
      exact fun hr => mul_eq_undefined.mpr ((mul_eq_undefined.mp hr).imp_left hp)
  | div =>
    rw [Linear.combine?] at h
    split_ifs at h with hdivisor
    cases h
    have hne : q.intercept ≠ 0 := zero_eq ▸ bne_zero_iff.mp (Bool.and_eq_true_iff.mp hdivisor).2
    exact fun hr => (div_eq_undefined hne).mpr (((div_eq_undefined hne).mp hr).imp_left hp)
  | pow =>
    rw [Linear.combine?] at h
    split_ifs at h
    cases h
    exact isProper_constant _

end Linear

namespace Expr

variable {e : Expr Exact} {p : Linear Exact}

theorem isProper_of_linearIn {v : String} (h : e.linearIn v = some p) : p.IsProper := by
  induction e generalizing p with
  | number x =>
    cases h
    exact Linear.isProper_constant x
  | symbol name =>
    rw [linearIn_symbol] at h
    split_ifs at h
    · cases h
      intro hslope
      cases hslope
    · cases h
      exact Linear.isProper_constant _
  | negate e ih =>
    obtain ⟨q, hq, rfl⟩ := linearIn_negate.mp h
    exact (ih hq).negate
  | binary op left right ihl ihr =>
    obtain ⟨q, r, hq, hr, hcombine⟩ := linearIn_binary.mp h
    exact (ihl hq).combine? (ihr hr) hcombine
  | call f arg ih =>
    obtain ⟨q, -, hcall⟩ := linearIn_call.mp h
    obtain ⟨-, -, rfl⟩ := call?_eq_some.mp hcall
    exact Linear.isProper_constant _
  | unknown command => cases h

/-- A slope that is not zero is a positive frequency, or no number. -/
theorem abs_slope_cases (hp : p.isConstant = false) :
    (∃ w : ℝ, Arithmetic.abs p.slope = real w ∧ 0 < w) ∨ p.slope = undefined := by
  obtain ⟨slope, intercept⟩ := p
  cases slope with
  | undefined => exact .inr rfl
  | real a =>
    refine .inl ⟨|a|, rfl, abs_pos.mpr fun ha => ?_⟩
    rw [Linear.isConstant_real.mpr ha] at hp
    cases hp

end Expr

namespace Monomial

variable {a b m : Monomial Exact} {n : ℕ}

theorem hasProperWave_of_none (h : m.oscillation = none) : m.HasProperWave := by
  intro o ho
  rw [h] at ho
  cases ho

theorem hasProperWave_oscillating {p : Linear Exact} (hp : p.IsProper) (hvaries : p.isConstant = false)
    {c : Exact} (hc : p.intercept = undefined → c = undefined) (wave : Wave) :
    (oscillating c wave (Arithmetic.abs p.slope)).HasProperWave := by
  rintro o ⟨⟩
  refine (Expr.abs_slope_cases hvaries).imp_right fun hslope => ⟨?_, hc (hp hslope)⟩
  rw [hslope]
  rfl

theorem HasProperWave.negate (h : m.HasProperWave) : m.negate.HasProperWave := fun o ho =>
  (h o ho).imp_right fun hu => ⟨hu.1, neg_eq_undefined.mpr hu.2⟩

theorem HasProperWave.mul (ha : a.HasProperWave) (hb : b.HasProperWave) (h : a.mul b = .ok m) :
    m.HasProperWave := by
  obtain ⟨-, rfl⟩ := mul_eq_ok.mp h
  intro o ho
  change (a.oscillation <|> b.oscillation) = some o at ho
  cases hosc : a.oscillation with
  | none =>
    rw [hosc] at ho
    exact (hb o ho).imp_right fun hu => ⟨hu.1, mul_eq_undefined.mpr (.inr hu.2)⟩
  | some o' =>
    rw [hosc] at ho
    cases ho
    exact (ha _ hosc).imp_right fun hu => ⟨hu.1, mul_eq_undefined.mpr (.inl hu.2)⟩

theorem HasProperWave.of_powerOf (h : PowerOf HasProperWave n m) : m.HasProperWave := by
  induction h with
  | one => exact hasProperWave_of_none rfl
  | mul _ hb hm ih => exact ih.mul hb hm

end Monomial

namespace Expr

variable {e : Expr Exact} {p : Linear Exact} {f : Func} {ts : List (Monomial Exact)} {m : Monomial Exact}

theorem hasProperWave_of_expandCall (hp : p.IsProper) (h : expandCall f p = .ok ts) (hm : m ∈ ts) :
    m.HasProperWave := by
  by_cases hf : f = .exp
  · subst hf
    obtain rfl := expandCall_exp.mp h
    rw [List.mem_singleton.mp hm]
    exact hasProperWave_of_none rfl
  cases hvaries : p.isConstant with
  | true =>
    obtain ⟨-, rfl⟩ := (expandCall_of_isConstant hvaries hf).mp h
    rw [List.mem_singleton.mp hm]
    exact hasProperWave_of_none rfl
  | false =>
    have hcos (hi : p.intercept = undefined) : Arithmetic.cos p.intercept = undefined := by rw [hi]; rfl
    have hsin (hi : p.intercept = undefined) : Arithmetic.sin p.intercept = undefined := by rw [hi]; rfl
    rcases (expandCall_of_varying hvaries hf).mp h with ⟨-, rfl⟩ | ⟨-, rfl⟩
    · rcases List.mem_pair.mp hm with rfl | rfl
      · exact hasProperWave_oscillating hp hvaries (fun hi => mul_eq_undefined.mpr (.inr (hcos hi))) _
      · exact hasProperWave_oscillating hp hvaries hsin _
    · rcases List.mem_pair.mp hm with rfl | rfl
      · exact hasProperWave_oscillating hp hvaries hcos _
      · exact hasProperWave_oscillating hp hvaries (fun hi => mul_eq_undefined.mpr (.inr (hsin hi))) _

theorem hasProperWave_termInvariant : TermInvariant fun (_ : Expr Exact) m => m.HasProperWave where
  number x := hasProperWave_of_none rfl
  time := hasProperWave_of_none rfl
  euler := hasProperWave_of_none rfl
  symbol _ _ := hasProperWave_of_none rfl
  negate h := h.negate
  addLeft h := h
  addRight h := h
  subLeft h := h
  subRight h := HasProperWave.negate h
  mul ha hb hm := ha.mul hb hm
  div ha _ hr hm := by
    obtain ⟨-, -, -, rfl⟩ := reciprocal_eq_ok.mp hr
    exact ha.mul (hasProperWave_of_none rfl) hm
  powConstant _ _ _ := hasProperWave_of_none rfl
  pow _ _ _ _ _ hm := .of_powerOf hm
  call hp h hm := hasProperWave_of_expandCall (isProper_of_linearIn hp) h hm

theorem isProper_of_invariants (hc : (m.coefficient != 0) = true)
    (hw : m.HasProperWave) (hs : e.NamesSymbols m) : m.IsProper where
  coefficient := zero_eq ▸ bne_zero_iff.mp hc
  wave := hw
  time h := (hs.2 timeName h).1.1 rfl
  euler h := (hs.2 eulerName h).1.2 rfl

theorem isProper_of_expand (h : e.expand = .ok ts) : ∀ m ∈ ts, m.IsProper := fun m hm =>
  isProper_of_invariants (nonzero_eq_self.mp (nonzero_of_expand h) m hm)
    (hasProperWave_termInvariant.expand h m hm) (namesSymbols_termInvariant.expand h m hm)

theorem isProper_of_expandLenient (e : Expr Exact) : ∀ m ∈ e.expandLenient.terms, m.IsProper :=
  fun m hm => isProper_of_invariants (mem_nonzero.mp hm).2
    (hasProperWave_termInvariant.expandLenient e m hm) (namesSymbols_termInvariant.expandLenient e m hm)

end Expr

end Oscillator
