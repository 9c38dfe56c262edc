import Oscillator.Proofs.Exact.Numbers
import Oscillator.Proofs.Expansion.Steps

/-! # Strict and lenient expansion

Leaving out what cannot be expanded changes nothing where everything can be. The two expansions drop
terms of coefficient zero at different places; they agree because such terms never come up again once
the smallest parts are rid of them. For this the arithmetic must not multiply numbers other than
zero to zero, as exact numbers never do.
-/
namespace Oscillator

/-- Numbers other than zero stay so under products and opposites. -/
class Arithmetic.KeepsNonzero (α : Type) [Arithmetic α] : Prop where
  mul {x y : α} : (x != 0) = true → (y != 0) = true → (x * y != 0) = true
  neg {x : α} : (x != 0) = true → (-x != 0) = true

namespace Exact

theorem bne_zero_iff {a : Exact} : (a != 0) = true ↔ a ≠ real 0 := by
  cases a <;> simp [bne]

instance : Arithmetic.KeepsNonzero Exact where
  mul {x y} hx hy := by
    rw [bne_zero_iff] at *
    intro h
    obtain ⟨a, b, rfl, rfl, hab⟩ := mul_eq_real.mp h
    rcases mul_eq_zero.mp hab with rfl | rfl
    · exact hx rfl
    · exact hy rfl
  neg {x} hx := by
    rw [bne_zero_iff] at *
    intro h
    rw [neg_eq_real, neg_zero] at h
    exact hx h

/-- Exact numbers beside another way to store exponents of time, such as in a word. -/
@[reducible] noncomputable def storing (store : Int → Int) : Arithmetic Exact :=
  { (inferInstance : Arithmetic Exact) with storePower := store }

theorem keepsNonzero_storing (store : Int → Int) :
    @Arithmetic.KeepsNonzero Exact (storing store) :=
  let keeps : Arithmetic.KeepsNonzero Exact := inferInstance
  @Arithmetic.KeepsNonzero.mk Exact (storing store) keeps.mul keeps.neg

end Exact

variable {α : Type} [Arithmetic α]

namespace Monomial

theorem mem_nonzero {ts : List (Monomial α)} {m : Monomial α} :
    m ∈ nonzero ts ↔ m ∈ ts ∧ (m.coefficient != 0) = true := List.mem_filter

theorem nonzero_eq_self {ts : List (Monomial α)} :
    nonzero ts = ts ↔ ∀ m ∈ ts, (m.coefficient != 0) = true := List.filter_eq_self

/-- No product fails exactly where the list of products leaves no rejection, and then it is the list
of those that do not. -/
theorem products_eq_map_ok {left right ts : List (Monomial α)} :
    products left right = ts.map .ok ↔
      (products left right).filterMap Except.toOption = ts ∧
        (products left right).filterMap (fun
          | .error reason => some reason
          | .ok _ => none) = [] := by
  generalize products left right = xs
  induction xs generalizing ts with
  | nil => simp [eq_comm]
  | cons x xs ih =>
    cases x with
    | error reason =>
      cases ts <;> simp
    | ok m =>
      cases ts with
      | nil => simp [Except.toOption]
      | cons m' ts =>
        simp [Except.toOption, ih, and_assoc]

theorem nonzero_append {left right : List (Monomial α)} (hl : nonzero left = left)
    (hr : nonzero right = right) : nonzero (left ++ right) = left ++ right := by
  rw [nonzero, List.filter_append]
  exact congrArg₂ (· ++ ·) hl hr

section

variable [Arithmetic.KeepsNonzero α]

theorem nonzero_products {left right ts : List (Monomial α)} (h : products left right = ts.map .ok)
    (hl : nonzero left = left) (hr : nonzero right = right) : nonzero ts = ts := by
  rw [nonzero_eq_self] at *
  intro m hm
  obtain ⟨a, ha, b, hb, hab⟩ := exists_factors h hm
  obtain ⟨-, rfl⟩ := mul_eq_ok.mp hab
  exact Arithmetic.KeepsNonzero.mul (hl a ha) (hr b hb)

theorem nonzero_negate {ts : List (Monomial α)} (h : nonzero ts = ts) :
    nonzero (ts.map .negate) = ts.map .negate := by
  rw [nonzero_eq_self] at *
  intro m hm
  obtain ⟨a, ha, rfl⟩ := List.mem_map.mp hm
  exact Arithmetic.KeepsNonzero.neg (h a ha)

end

end Monomial

namespace Expr

open Monomial

theorem nonzero_of_expand [Arithmetic.KeepsNonzero α] {e : Expr α} {ts : List (Monomial α)}
    (h : e.expand = .ok ts) : nonzero ts = ts := by
  have twice (ms : List (Monomial α)) : nonzero (nonzero ms) = nonzero ms :=
    nonzero_eq_self.mpr fun _ hm => (mem_nonzero.mp hm).2
  induction e generalizing ts with
  | number x =>
    rw [expand_number] at h
    cases h
    exact twice _
  | symbol name =>
    rw [expand_symbol] at h
    cases h
    exact twice _
  | negate e ih =>
    obtain ⟨a, ha, rfl⟩ := expand_negate.mp h
    exact nonzero_negate (ih ha)
  | binary op left right ihl ihr =>
    cases op with
    | add =>
      obtain ⟨a, b, ha, hb, rfl⟩ := expand_add.mp h
      exact nonzero_append (ihl ha) (ihr hb)
    | sub =>
      obtain ⟨a, b, ha, hb, rfl⟩ := expand_sub.mp h
      exact nonzero_append (ihl ha) (nonzero_negate (ihr hb))
    | mul =>
      obtain ⟨_, _, c, -, -, -, rfl⟩ := expand_mul.mp h
      exact twice c
    | div =>
      obtain ⟨_, _, _, c, -, -, -, -, rfl⟩ := expand_div.mp h
      exact twice c
    | pow =>
      obtain ⟨n, -, ⟨b, -, rfl⟩ | ⟨-, -, -, -, a, c, -, -, rfl⟩⟩ := expand_pow.mp h
      · exact twice _
      · exact twice c
  | call f arg =>
    obtain ⟨_, a, -, -, rfl⟩ := expand_call.mp h
    exact twice a
  | unknown command =>
    rw [expand_unknown] at h
    cases h

/-- What an attempt to expand leaves. -/
def Salvage.ofAttempt : Except (Rejection α) (List (Monomial α)) → Salvage α
  | .ok terms => ⟨terms, []⟩
  | .error reason => ⟨[], [reason]⟩

omit [Arithmetic α] in
theorem Salvage.ofAttempt_eq_iff (attempt : Except (Rejection α) (List (Monomial α)))
    {ts : List (Monomial α)} : ofAttempt attempt = ⟨ts, []⟩ ↔ attempt = .ok ts := by
  cases attempt <;> simp [ofAttempt]

omit [Arithmetic α] in
theorem Salvage.eq_mk_nil_iff {s : Salvage α} {ts : List (Monomial α)} :
    s = ⟨ts, []⟩ ↔ s.terms = ts ∧ s.rejected = [] := by
  cases s
  simp

omit [Arithmetic α] in
/-- Where leaving nothing out means success, the result is what was kept. -/
theorem Salvage.rejected_eq_nil_iff {s : Salvage α} {attempt : Except (Rejection α) (List (Monomial α))}
    (h : ∀ ts, s = ⟨ts, []⟩ ↔ attempt = .ok ts) : s.rejected = [] ↔ attempt = .ok s.terms := by
  rw [← h, eq_mk_nil_iff, eq_self, true_and]

section

variable [Arithmetic.KeepsNonzero α] {e : Expr α} {ts : List (Monomial α)}

/-- Nothing is left out exactly where the strict expansion succeeds. -/
theorem summands_eq_iff : e.summands = ⟨ts, []⟩ ↔ e.expand = .ok ts := by
  induction e generalizing ts with
  | number x => exact Salvage.ofAttempt_eq_iff (number x).expand
  | symbol name => exact Salvage.ofAttempt_eq_iff (symbol name).expand
  | negate e ih =>
    rw [expand_negate, Salvage.eq_mk_nil_iff, summands, Salvage.rejected_eq_nil_iff fun _ => ih]
    constructor
    · rintro ⟨hts, he⟩
      exact ⟨_, he, hts⟩
    · rintro ⟨a, ha, rfl⟩
      rw [ih.mpr ha]
      exact ⟨rfl, ha⟩
  | binary op left right ihl ihr =>
    have hl := Salvage.rejected_eq_nil_iff fun _ => ihl
    have hr := Salvage.rejected_eq_nil_iff fun _ => ihr
    cases op with
    | add =>
      rw [expand_add, Salvage.eq_mk_nil_iff, summands, List.append_eq_nil_iff, hl, hr]
      constructor
      · rintro ⟨hts, ha, hb⟩
        exact ⟨_, _, ha, hb, hts⟩
      · rintro ⟨a, b, ha, hb, rfl⟩
        rw [ihl.mpr ha, ihr.mpr hb]
        exact ⟨rfl, ha, hb⟩
    | sub =>
      rw [expand_sub, Salvage.eq_mk_nil_iff, summands, List.append_eq_nil_iff, hl, hr]
      constructor
      · rintro ⟨hts, ha, hb⟩
        exact ⟨_, _, ha, hb, hts⟩
      · rintro ⟨a, b, ha, hb, rfl⟩
        rw [ihl.mpr ha, ihr.mpr hb]
        exact ⟨rfl, ha, hb⟩
    | mul =>
      rw [expand_mul, Salvage.eq_mk_nil_iff, summands, List.append_eq_nil_iff,
        List.append_eq_nil_iff, hl, hr]
      constructor
      -- The strict expansion rids the product of zeros, which it has none of.
      · rintro ⟨hts, ⟨ha, hb⟩, hp⟩
        have hc := products_eq_map_ok.mpr ⟨hts, hp⟩
        exact ⟨_, _, ts, ha, hb, hc, nonzero_products hc (nonzero_of_expand ha) (nonzero_of_expand hb)⟩
      · rintro ⟨a, b, c, ha, hb, hc, rfl⟩
        rw [nonzero_products hc (nonzero_of_expand ha) (nonzero_of_expand hb), ihl.mpr ha, ihr.mpr hb]
        obtain ⟨hts, hp⟩ := products_eq_map_ok.mp hc
        exact ⟨hts, ⟨ha, hb⟩, hp⟩
    | div => exact Salvage.ofAttempt_eq_iff (binary .div left right).expand
    | pow => exact Salvage.ofAttempt_eq_iff (binary .pow left right).expand
  | call f arg => exact Salvage.ofAttempt_eq_iff (call f arg).expand
  | unknown command => exact Salvage.ofAttempt_eq_iff (unknown command).expand

theorem expandLenient_eq_iff : e.expandLenient = ⟨ts, []⟩ ↔ e.expand = .ok ts := by
  rw [← summands_eq_iff, expandLenient, Salvage.eq_mk_nil_iff, Salvage.eq_mk_nil_iff]
  constructor
  · rintro ⟨hts, hr⟩
    have he := summands_eq_iff.mp (Salvage.eq_mk_nil_iff.mpr ⟨rfl, hr⟩)
    rw [nonzero_of_expand he] at hts
    exact ⟨hts, hr⟩
  · rintro ⟨rfl, hr⟩
    have he := summands_eq_iff.mp (Salvage.eq_mk_nil_iff.mpr ⟨rfl, hr⟩)
    exact ⟨nonzero_of_expand he, hr⟩

end

/-- With exact numbers the two expansions agree on success: the same terms in the same order. How
exponents of time are stored does not matter. -/
theorem expand_eq_ok_iff_nothing_rejected (store : Int → Int) (e : Expr Exact)
    (ts : List (Monomial Exact)) :
    letI := Exact.storing store
    e.expand = .ok ts ↔ e.expandLenient = ⟨ts, []⟩ := by
  let _ := Exact.storing store
  have _ := Exact.keepsNonzero_storing store
  exact expandLenient_eq_iff.symm

end Expr

end Oscillator
