import Oscillator.Proofs.Expansion.Meaning
import Oscillator.Proofs.Prepared

/-! # Results without a report

The settings hold stand-ins for what a response does not say, and every use of one is reported. Two
runs on one response under different settings therefore agree as soon as one of them reports
nothing. A stand-in may decide which terms the next part is read from, so each reader is followed
from its first part on.
-/
namespace Oscillator

theorem Names.union_eq_nil_iff {left right : Names} :
    left.union right = [] ↔ left = [] ∧ right = [] := by
  simp only [List.eq_nil_iff_forall_not_mem, mem_union, not_or, forall_and]

section

variable {α : Type} [Arithmetic α]

namespace Textual

variable {defaults other : TextDefaults α} {terms : List (Monomial α)}

section

variable {component : Component} {default : α} {x : Option α} {found : Bool} {c1 c2 : α}

omit [Arithmetic α] in
theorem orDefault_some (y : α) : orDefault component default (some y) = (y, []) := rfl

omit [Arithmetic α] in
theorem exists_of_orDefault (h : (orDefault component default x).2 = []) : ∃ y, x = some y := by
  cases x with
  | some y => exact ⟨y, rfl⟩
  | none => cases h

omit [Arithmetic α] in
theorem amplitudes_true : amplitudes defaults true c1 c2 = ((c1, c2), []) := rfl

omit [Arithmetic α] in
theorem found_of_amplitudes (h : (amplitudes defaults found c1 c2).2 = []) : found = true := by
  cases found with
  | true => rfl
  | false => cases h

end

theorem undamped_unreported (h : (undamped defaults terms).2 = []) :
    undamped other terms = undamped defaults terms := by
  obtain ⟨homega, hfound⟩ := List.append_eq_nil_iff.mp h
  obtain ⟨omega, homega⟩ := exists_of_orDefault homega
  have hfound := found_of_amplitudes hfound
  simp only [undamped, homega, hfound, orDefault_some, amplitudes_true]

theorem underdamped_unreported (h : (underdamped defaults terms).2 = []) :
    underdamped other terms = underdamped defaults terms := by
  obtain ⟨h, hfound⟩ := List.append_eq_nil_iff.mp h
  obtain ⟨halpha, homega⟩ := List.append_eq_nil_iff.mp h
  -- The rate selects the terms that the waves are read from, so it comes first.
  obtain ⟨alpha, halpha⟩ := exists_of_orDefault halpha
  rw [halpha] at homega hfound
  obtain ⟨omega, homega⟩ := exists_of_orDefault homega
  have hfound := found_of_amplitudes hfound
  simp only [underdamped, halpha, homega, hfound, orDefault_some, amplitudes_true]

theorem forced_unreported (h : (forced defaults terms).2 = []) :
    forced other terms = forced defaults terms := by
  obtain ⟨h, hfound⟩ := List.append_eq_nil_iff.mp h
  obtain ⟨h, hsteady⟩ := List.append_eq_nil_iff.mp h
  obtain ⟨halpha, homega⟩ := List.append_eq_nil_iff.mp h
  obtain ⟨alpha, halpha⟩ := exists_of_orDefault halpha
  rw [halpha] at homega hfound
  obtain ⟨omega, homega⟩ := exists_of_orDefault homega
  obtain ⟨frequency, hsteady⟩ := exists_of_orDefault hsteady
  have hfound := found_of_amplitudes hfound
  simp only [forced, halpha, homega, hsteady, hfound, orDefault_some, amplitudes_true]

theorem critical_unreported (h : (critical defaults terms).2 = []) :
    critical other terms = critical defaults terms := by
  obtain ⟨hrate, hfound⟩ := List.append_eq_nil_iff.mp h
  obtain ⟨rate, hrate⟩ := exists_of_orDefault hrate
  rw [hrate] at hfound
  have hfound := found_of_amplitudes hfound
  simp only [critical, hrate, hfound, orDefault_some, amplitudes_true]

/-- The exponentials that decaying terms are gathered in. -/
def exponentials (terms : List (Monomial α)) : List (Exponential α) :=
  (terms.filter fun t => decide (t.rate < 0) && t.timePower == 0 && t.oscillation.isNone).foldl
    addExponential []

theorem overdamped_of_two {first second : Exponential α} {rest : List (Exponential α)}
    (h : exponentials terms = first :: second :: rest) : overdamped defaults terms =
      (.overdamped first.coefficient second.coefficient first.rate second.rate, []) := by
  rw [exponentials] at h
  simp only [overdamped, h]
  rfl

/-- A second rate is not taken from the defaults in silence either, so two exponentials were found. -/
theorem overdamped_unreported (h : (overdamped defaults terms).2 = []) :
    overdamped other terms = overdamped defaults terms := by
  match hfound : exponentials terms with
  | [] =>
    rw [exponentials] at hfound
    simp only [overdamped, hfound] at h
    cases h
  | [e] =>
    rw [exponentials] at hfound
    simp only [overdamped, hfound] at h
    cases h
  | first :: second :: rest => rw [overdamped_of_two hfound, overdamped_of_two hfound]

theorem coefficients_unreported {regime : Regime} (h : (coefficients regime defaults terms).2 = []) :
    coefficients regime other terms = coefficients regime defaults terms := by
  cases regime with
  | undamped => exact undamped_unreported h
  | underdamped => exact underdamped_unreported h
  | forced => exact forced_unreported h
  | critical => exact critical_unreported h
  | overdamped => exact overdamped_unreported h

/-- Without symbols there is nothing that a placeholder value could replace. -/
theorem substitute_eq_self {placeholder : α} {term : Monomial α} (h : term.symbols = []) :
    substitute placeholder term = term := by
  rw [substitute, h]
  cases term
  cases h
  rfl

theorem map_substitute_eq_self (placeholder : α) (h : ∀ m ∈ terms, m.symbols = []) :
    terms.map (substitute placeholder) = terms := by
  rw [List.map_congr_left fun m hm => substitute_eq_self (h m hm), List.map_id']

omit [Arithmetic α] in
theorem symbols_eq_nil_of_unresolved {text : String} (h : unresolved text terms = []) :
    ∀ m ∈ terms, m.symbols = [] := by
  have hnames := (Names.union_eq_nil_iff.mp h).2
  rw [List.map_eq_nil_iff, List.flatMap_eq_nil_iff] at hnames
  exact hnames

theorem resolve_unreported {regime : Regime} {solution : String} {properties : Option (Properties α)}
    (h : (resolve regime solution properties defaults).degradations = []) :
    resolve regime solution properties other = resolve regime solution properties defaults := by
  obtain ⟨hsymbols, hcoefficients⟩ := List.append_eq_nil_iff.mp h
  have hempty : unresolved (rightHandSide solution)
      (readTerms (α := α) (rightHandSide solution)) = [] := by
    cases hnames : unresolved (rightHandSide solution) (readTerms (α := α) _) with
    | nil => rfl
    | cons name names =>
      rw [hnames] at hsymbols
      cases hsymbols
  have hterms := symbols_eq_nil_of_unresolved hempty
  change (coefficients regime defaults _).2 = [] at hcoefficients
  rw [map_substitute_eq_self _ hterms] at hcoefficients
  simp only [resolve, hempty, map_substitute_eq_self _ hterms, coefficients_unreported hcoefficients,
    List.isEmpty_nil, if_true]

end Textual

/-- The default forcing is taken only for a literal that is none, and then reported. -/
theorem Parametric.resolve_unreported {regime : Regime} {s : System α}
    {properties : Option (Properties α)} {settings other : Settings α}
    (h : (resolve regime s properties settings).degradations = []) :
    resolve regime s properties other = resolve regime s properties settings := by
  rw [resolve_degradations] at h
  cases regime with
  | forced =>
    obtain ⟨f, hf⟩ := forcing_degradations_eq_nil.mp h
    simp only [resolve, forcing_of_parse hf]
  | _ => rfl

end

/-! A text of which everything is read: its powers of time cancel, and one cosine is left. -/

open Exact

def cancellingText : String := "cos(t)*t/t"

theorem Expr.parse_cancellingText : Expr.parse cancellingText = .ok cancelling := by
  have hscan : Token.scan (α := Exact) [] cancellingText.toList =
      [.func .cos, .opening .paren, .symbol "t", .closing .paren, .times, .symbol "t", .slash,
        .symbol "t"] := by
    simp [cancellingText, Token.scan, Text.isBlank, Token.isNumeralChar, Text.isLetter,
      Token.ofWord?, Token.ofMark?, Token.index, Token.letters, Func.ofName?, Func.all, Func.name]
  rw [Expr.parse, Token.ofText, hscan]
  simp [ofTokens, sum, product, powers, unary, primary, group, powersTail, productTail, sumTail,
    Token.startsFactor, Reading.closed, Reading.widen, Except.ok_bind, pure, Except.pure,
    cancelling, timeName]

theorem Exact.sameRate_real (a b : ℝ) :
    Textual.sameRate (real a) (real b) = decide (|a - b| ≤ 1e-9 * max |a| 1) := by
  rw [Textual.sameRate, real_sub, abs_real, abs_real, one_eq, larger_real, ofScientific_eq, real_mul]
  simp only [real_le]

@[simp] theorem Exact.sameRate_self (a : ℝ) : Textual.sameRate (real a) (real a) = true := by
  rw [sameRate_real, sub_self, abs_zero, decide_eq_true_eq]
  positivity

namespace Textual

variable {text : String} {e : Expr Exact} {ts : List (Monomial Exact)}

/-- A text that is a sum of monomials has its terms. -/
theorem readTerms_of_expand (hp : Expr.parse text = .ok e) (he : e.expand = .ok ts) :
    readTerms text = ts := by
  simp only [readTerms, hp, Expr.expandLenient_eq_iff.mpr he]

theorem undamped_cosine (defaults : TextDefaults Exact) :
    undamped defaults [.oscillating (real 1) .cosine (real 1)] =
      (.undamped (real 1) (real 0) (real 1), []) := by
  simp [undamped, steadyTerms, Monomial.oscillating, Waves.ofTerms, Waves.none, Waves.add, orDefault,
    amplitudes]

theorem rightHandSide_cancellingText : rightHandSide cancellingText = cancellingText := by decide

theorem resolve_cancellingText (properties : Option (Properties Exact))
    (defaults : TextDefaults Exact) :
    (resolve .undamped cancellingText properties defaults).coefficients =
        .undamped (real 1) (real 0) (real 1) ∧
      (resolve .undamped cancellingText properties defaults).degradations = [] := by
  have hterms := readTerms_of_expand Expr.parse_cancellingText Expr.expand_cancelling
  have hnames : unresolved cancellingText
      [(.oscillating (real 1) .cosine (real 1) : Monomial Exact)] = [] := by decide
  simp only [resolve, rightHandSide_cancellingText, hterms, hnames]
  exact ⟨congrArg Prod.fst (undamped_cosine defaults), congrArg Prod.snd (undamped_cosine defaults)⟩

end Textual

def Response.written (regime : Regime) (text : String) : Response Exact :=
  ⟨regime, some text, none, none, none, none⟩

theorem Response.written_resolve (regime : Regime) (settings : Settings Exact) :
    (written regime cancellingText).resolve settings =
      .ok (Textual.resolve regime cancellingText none settings.textDefaults) := by
  have htext : (written regime cancellingText).solutionText = some cancellingText := by
    have htrim : Text.trim cancellingText = cancellingText := by decide
    simp only [solutionText, written, Option.map_some, htrim]
    rfl
  simp only [resolve, htext]
  rfl

/-- A result without a report is the same under all settings. -/
theorem Response.resolve_eq_of_unreported {α : Type} [Arithmetic α] {r : Response α}
    {settings : Settings α} {q : Resolution α} (h : r.resolve settings = .ok q)
    (hd : q.degradations = []) (other : Settings α) : r.resolve other = .ok q := by
  rw [resolve] at h ⊢
  cases hs : r.system? with
  | error e => simp [hs] at h
  | ok system =>
    cases system with
    | some s =>
      simp only [hs] at h ⊢
      cases h
      rw [Parametric.resolve_unreported hd]
    | none =>
      cases ht : r.solutionText with
      | none => simp [hs, ht] at h
      | some text =>
        simp only [hs, ht] at h ⊢
        cases h
        rw [Textual.resolve_unreported hd]

theorem Response.resolve_eq_of_unreported_cancelling :
    ∃ q : Resolution Exact, (written .undamped cancellingText).resolve .standard = .ok q ∧
      q.degradations = [] ∧ (written .undamped cancellingText).resolve
        ⟨.standard, .standard, 0.01, ⟨2, 3, 4, 5, 6, 7, 8, 9⟩, .zero⟩ = .ok q := by
  have h := written_resolve .undamped .standard
  have hd := (Textual.resolve_cancellingText none .standard).2
  exact ⟨_, h, hd, resolve_eq_of_unreported h hd _⟩

end Oscillator
