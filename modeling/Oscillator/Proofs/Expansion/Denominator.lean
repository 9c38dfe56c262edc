import Oscillator.Proofs.Double.Negation
import Oscillator.Proofs.Expansion.Affine

/-! # Sums over a denominator

A sum that is a factor is read summand by summand: what cannot be expanded is left out, and the products
of the rest are kept. A quotient is not taken apart. It is read as a whole, so one summand of its
numerator that cannot be expanded takes the others with it.
-/
namespace Oscillator

variable {α : Type} [Arithmetic α]

namespace Monomial

variable {left left' right ts us : List (Monomial α)}

theorem products_append : products (left ++ left') right = products left right ++ products left' right :=
  List.flatMap_append

theorem products_append_eq_ok (h : products left right = ts.map .ok)
    (h' : products left' right = us.map .ok) :
    products (left ++ left') right = (ts ++ us).map .ok := by
  rw [products_append, h, h', List.map_append]

end Monomial

namespace Expr

open Monomial

variable {a b d : Expr α} {ts us : List (Monomial α)}

omit [Arithmetic α] in
theorem isOk_iff {x : Except (Rejection α) (List (Monomial α))} :
    x.isOk = true ↔ ∃ ts, x = .ok ts := by
  cases x <;> simp [Except.isOk, Except.toBool]

/-! The terms of a quotient are those of its strict expansion, and none if that fails. -/

theorem summands_div (a d : Expr α) :
    (binary .div a d).summands = Salvage.ofAttempt (binary .div a d).expand := rfl

theorem expandLenient_div_of_expand (h : (binary .div a d).expand = .ok ts) :
    (binary .div a d).expandLenient.terms = ts := by
  rw [expandLenient, summands_div, h]
  obtain ⟨-, -, -, c, -, -, -, -, rfl⟩ := expand_div.mp h
  exact nonzero_eq_self.mpr fun _ hm => (mem_nonzero.mp hm).2

theorem expandLenient_div_of_not_expand (h : ¬∃ ts, (binary .div a d).expand = .ok ts) :
    (binary .div a d).expandLenient.terms = [] := by
  rw [expandLenient, summands_div]
  cases hts : (binary .div a d).expand with
  | error reason => rfl
  | ok ts => exact absurd ⟨ts, hts⟩ h

/-- Both parts of a numerator are divided, one after the other, if both can be expanded. -/
theorem expandLenient_div_add_of_expand (ha : a.expand = .ok ts) (hb : b.expand = .ok us) :
    (binary .div (binary .add a b) d).expandLenient.terms =
      (binary .div a d).expandLenient.terms ++ (binary .div b d).expandLenient.terms := by
  by_cases hd : ∃ m r, d.expand = .ok [m] ∧ m.reciprocal = .ok r
  · obtain ⟨m, r, hd, hr⟩ := hd
    have hosc : ∀ q ∈ [r], q.oscillation = none := by
      obtain ⟨-, -, -, rfl⟩ := reciprocal_eq_ok.mp hr
      exact List.forall_mem_singleton.mpr rfl
    obtain ⟨as, has⟩ := exists_products ts hosc
    obtain ⟨bs, hbs⟩ := exists_products us hosc
    have hsum := expand_add.mpr ⟨ts, us, ha, hb, rfl⟩
    rw [expandLenient_div_of_expand (expand_div.mpr ⟨m, r, ts, as, hd, hr, ha, has, rfl⟩),
      expandLenient_div_of_expand (expand_div.mpr ⟨m, r, us, bs, hd, hr, hb, hbs, rfl⟩),
      expandLenient_div_of_expand (expand_div.mpr
        ⟨m, r, ts ++ us, as ++ bs, hd, hr, hsum, products_append_eq_ok has hbs, rfl⟩)]
    exact List.filter_append _ _
  · -- By what does not divide, nothing is divided.
    have hnone (x : Expr α) : ¬∃ ts, (binary .div x d).expand = .ok ts := by
      rintro ⟨ts, hts⟩
      obtain ⟨m, r, -, -, hm, hr, -⟩ := expand_div.mp hts
      exact hd ⟨m, r, hm, hr⟩
    rw [expandLenient_div_of_not_expand (hnone _), expandLenient_div_of_not_expand (hnone _),
      expandLenient_div_of_not_expand (hnone _), List.append_nil]

theorem expandLenient_div_add_of_not_expand
    (h : ¬((∃ ts, a.expand = .ok ts) ∧ ∃ us, b.expand = .ok us)) :
    (binary .div (binary .add a b) d).expandLenient.terms = [] := by
  apply expandLenient_div_of_not_expand
  rintro ⟨ts, hts⟩
  obtain ⟨_, _, _, _, -, -, hsum, -⟩ := expand_div.mp hts
  obtain ⟨as, bs, ha, hb, -⟩ := expand_add.mp hsum
  exact h ⟨⟨as, ha⟩, bs, hb⟩

/-- Over a denominator the summands of a numerator are read one by one only if all of them can be
expanded, and otherwise none is. Before a factor they are read one by one in any case. -/
theorem expandLenient_div_add (a b d : Expr α) :
    (binary .div (binary .add a b) d).expandLenient.terms =
        (if a.expand.isOk ∧ b.expand.isOk then
          (binary .div a d).expandLenient.terms ++ (binary .div b d).expandLenient.terms
        else []) ∧
      (binary .mul (binary .add a b) d).expandLenient.terms =
        (binary .mul a d).expandLenient.terms ++ (binary .mul b d).expandLenient.terms := by
  constructor
  · split
    case isTrue h =>
      obtain ⟨ts, ha⟩ := isOk_iff.mp h.1
      obtain ⟨us, hb⟩ := isOk_iff.mp h.2
      exact expandLenient_div_add_of_expand ha hb
    case isFalse h =>
      exact expandLenient_div_add_of_not_expand fun ⟨ha, hb⟩ => h ⟨isOk_iff.mpr ha, isOk_iff.mpr hb⟩
  · simp only [expandLenient, summands]
    rw [products_append, List.filterMap_append]
    exact List.filter_append _ _

/-- Half of `t` is read, but half of a sum of `t` and an unknown command is left out as a whole. -/
theorem expandLenient_div_add_dropped :
    ¬∀ (a b d : Expr (Double .native)) (c : Double .native) (m : Monomial (Double .native)),
      d.constantValue = some c → (c != 0) = true → d.expand = .ok [m] →
        (binary .div (binary .add a b) d).expandLenient.terms =
          (binary .div a d).expandLenient.terms ++ (binary .div b d).expandLenient.terms := by
  intro h
  have htwo : ((2 : Double .native) != 0) = true := by decide +kernel
  have hconstant : (number (2 : Double .native)).constantValue = some 2 :=
    constantValue_eq_some.mpr ⟨.constant 2, rfl, by decide +kernel, rfl⟩
  have hd : (number (2 : Double .native)).expand = .ok [.constant 2] :=
    congrArg Except.ok (nonzero_eq_self.mpr (List.forall_mem_singleton.mpr htwo))
  have hquotient := h (.unknown "Gamma") (.symbol timeName) (.number 2) 2 _ hconstant htwo hd
  have hsum : ¬((∃ ts, (unknown (α := Double .native) "Gamma").expand = .ok ts) ∧
      ∃ us, (symbol (α := Double .native) timeName).expand = .ok us) := by
    rintro ⟨⟨ts, hts⟩, -⟩
    cases hts
  have hhalf : (binary .div (symbol timeName) (number (2 : Double .native))).expandLenient.terms.isEmpty =
      false := by decide +kernel
  rw [expandLenient_div_add_of_not_expand hsum] at hquotient
  obtain ⟨-, hnil⟩ := List.append_eq_nil_iff.mp hquotient.symm
  rw [hnil] at hhalf
  cases hhalf

end Expr

end Oscillator
