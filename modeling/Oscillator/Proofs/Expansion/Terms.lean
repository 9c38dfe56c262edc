import Oscillator.Proofs.Expansion.Leniency

/-! # Terms of an expansion

Strict and lenient expansion make their terms in the same steps. What each of these steps keeps holds of
every term of both.
-/
namespace Oscillator

variable {α : Type} [Arithmetic α]

namespace Monomial

/-- A product that is kept, whatever became of the others, is made of two factors too. -/
theorem exists_factors_of_kept {left right : List (Monomial α)} {m : Monomial α}
    (hm : m ∈ (products left right).filterMap Except.toOption) :
    ∃ a ∈ left, ∃ b ∈ right, a.mul b = .ok m := by
  obtain ⟨x, hx, hm⟩ := List.mem_filterMap.mp hm
  obtain ⟨a, ha, hx⟩ := List.mem_flatMap.mp hx
  obtain ⟨b, hb, rfl⟩ := List.mem_map.mp hx
  refine ⟨a, ha, b, hb, ?_⟩
  cases hab : a.mul b with
  | error reason =>
    rw [hab] at hm
    cases hm
  | ok m' =>
    rw [hab] at hm
    cases hm
    rfl

/-- Products of a number of factors with the property `P`, multiplied one after the other. -/
inductive PowerOf (P : Monomial α → Prop) : ℕ → Monomial α → Prop
  | one : PowerOf P 0 (constant 1)
  | mul {n : ℕ} {a b m : Monomial α} (ha : PowerOf P n a) (hb : P b) (hm : a.mul b = .ok m) :
      PowerOf P (n + 1) m

theorem PowerOf.imp {P Q : Monomial α → Prop} {n : ℕ} {m : Monomial α} (h : PowerOf P n m)
    (hPQ : ∀ b, P b → Q b) : PowerOf Q n m := by
  induction h with
  | one => exact .one
  | mul _ hb hm ih => exact .mul ih (hPQ _ hb) hm

theorem powerOf_powSum {P : Monomial α → Prop} {base ts : List (Monomial α)} {n : ℕ}
    (hbase : ∀ m ∈ base, P m) (h : powSum base n = .ok ts) : ∀ m ∈ ts, PowerOf P n m := by
  induction n generalizing ts with
  | zero =>
    cases h
    exact List.forall_mem_singleton.mpr .one
  | succ n ih =>
    obtain ⟨as, has, hts⟩ := powSum_succ_eq_ok.mp h
    intro m hm
    obtain ⟨a, ha, b, hb, hab⟩ := exists_factors hts hm
    exact .mul (ih has a ha) (hbase b hb) hab

end Monomial

namespace Expr

open Monomial

/-- A property of expressions and terms that the terms of an expansion have if those of its parts do. -/
structure TermInvariant (Q : Expr α → Monomial α → Prop) : Prop where
  number (x : α) : Q (number x) (constant x)
  time : Q (symbol timeName) time
  euler : Q (symbol eulerName) (constant Arithmetic.euler)
  symbol {name : String} (ht : name ≠ timeName) (he : name ≠ eulerName) :
    Q (symbol name) (.symbol name)
  negate {e : Expr α} {m : Monomial α} (h : Q e m) : Q (negate e) m.negate
  addLeft {left right : Expr α} {m : Monomial α} (h : Q left m) : Q (binary .add left right) m
  addRight {left right : Expr α} {m : Monomial α} (h : Q right m) : Q (binary .add left right) m
  subLeft {left right : Expr α} {m : Monomial α} (h : Q left m) : Q (binary .sub left right) m
  subRight {left right : Expr α} {m : Monomial α} (h : Q right m) :
    Q (binary .sub left right) m.negate
  mul {left right : Expr α} {a b m : Monomial α} (ha : Q left a) (hb : Q right b)
    (hm : a.mul b = .ok m) : Q (binary .mul left right) m
  div {left right : Expr α} {a d r m : Monomial α} (ha : Q left a) (hd : Q right d)
    (hr : d.reciprocal = .ok r) (hm : a.mul r = .ok m) : Q (binary .div left right) m
  powConstant (base exponent : Expr α) (c : α) : Q (binary .pow base exponent) (constant c)
  pow {base exponent : Expr α} {n : α} {m : Monomial α} (hn : exponent.constantValue = some n)
    (hb : base.constantValue = none) (hneg : ¬n < 0) (hwhole : Arithmetic.isWhole n = true)
    (hlarge : ¬(maxPower : α) < n) (hm : PowerOf (Q base) (Arithmetic.toCount n) m) :
    Q (binary .pow base exponent) m
  call {f : Func} {arg : Expr α} {p : Linear α} {ts : List (Monomial α)} {m : Monomial α}
    (hp : arg.linearIn timeName = some p) (h : expandCall f p = .ok ts) (hm : m ∈ ts) : Q (call f arg) m

variable {Q : Expr α → Monomial α → Prop} {e : Expr α} {ts : List (Monomial α)} {m : Monomial α}

/-- The terms of a function name no symbols and have no power of time. -/
theorem plain_of_expandCall {f : Func} {p : Linear α} (h : expandCall f p = .ok ts) (hm : m ∈ ts) :
    m.timePower = 0 ∧ m.symbols = [] := by
  by_cases hf : f = .exp
  · subst hf
    obtain rfl := expandCall_exp.mp h
    rw [List.mem_singleton.mp hm]
    exact ⟨rfl, rfl⟩
  cases hp : p.isConstant with
  | true =>
    obtain ⟨-, rfl⟩ := (expandCall_of_isConstant hp hf).mp h
    rw [List.mem_singleton.mp hm]
    exact ⟨rfl, rfl⟩
  | false =>
    rcases (expandCall_of_varying hp hf).mp h with ⟨-, rfl⟩ | ⟨-, rfl⟩
    · rcases List.mem_pair.mp hm with rfl | rfl <;> exact ⟨rfl, rfl⟩
    · rcases List.mem_pair.mp hm with rfl | rfl <;> exact ⟨rfl, rfl⟩

namespace TermInvariant

theorem ofSymbol (hQ : TermInvariant Q) (name : String) : Q (.symbol name)
    (if name = timeName then .time
      else if name = eulerName then .constant Arithmetic.euler else .symbol name) := by
  by_cases ht : name = timeName
  · rw [if_pos ht, ht]
    exact hQ.time
  · rw [if_neg ht]
    by_cases he : name = eulerName
    · rw [if_pos he, he]
      exact hQ.euler
    · rw [if_neg he]
      exact hQ.symbol ht he

theorem expand (hQ : TermInvariant Q) (h : e.expand = .ok ts) : ∀ m ∈ ts, Q e m := by
  induction e generalizing ts with
  | number x =>
    rw [expand_number] at h
    cases h
    intro m hm
    rw [List.mem_singleton.mp (mem_nonzero.mp hm).1]
    exact hQ.number x
  | symbol name =>
    rw [expand_symbol] at h
    cases h
    intro m hm
    rw [List.mem_singleton.mp (mem_nonzero.mp hm).1]
    exact hQ.ofSymbol name
  | negate e ih =>
    obtain ⟨a, ha, rfl⟩ := expand_negate.mp h
    exact List.forall_mem_map.mpr fun m hm => hQ.negate (ih ha m hm)
  | binary op left right ihl ihr =>
    cases op with
    | add =>
      obtain ⟨a, b, ha, hb, rfl⟩ := expand_add.mp h
      exact List.forall_mem_append.mpr
        ⟨fun m hm => hQ.addLeft (ihl ha m hm), fun m hm => hQ.addRight (ihr hb m hm)⟩
    | sub =>
      obtain ⟨a, b, ha, hb, rfl⟩ := expand_sub.mp h
      exact List.forall_mem_append.mpr ⟨fun m hm => hQ.subLeft (ihl ha m hm),
        List.forall_mem_map.mpr fun m hm => hQ.subRight (ihr hb m hm)⟩
    | mul =>
      obtain ⟨as, bs, c, has, hbs, hc, rfl⟩ := expand_mul.mp h
      intro m hm
      obtain ⟨a, ha, b, hb, hab⟩ := exists_factors hc (mem_nonzero.mp hm).1
      exact hQ.mul (ihl has a ha) (ihr hbs b hb) hab
    | div =>
      obtain ⟨d, r, as, c, hd, hr, has, hc, rfl⟩ := expand_div.mp h
      intro m hm
      obtain ⟨a, ha, b, hb, hab⟩ := exists_factors hc (mem_nonzero.mp hm).1
      rw [List.mem_singleton.mp hb] at hab
      exact hQ.div (ihl has a ha) (ihr hd d (List.mem_singleton_self d)) hr hab
    | pow =>
      obtain ⟨n, hn, ⟨b, -, rfl⟩ | ⟨hb, hneg, hwhole, hlarge, a, c, ha, hc, rfl⟩⟩ := expand_pow.mp h
      · intro m hm
        rw [List.mem_singleton.mp (mem_nonzero.mp hm).1]
        exact hQ.powConstant left right _
      · intro m hm
        have hpower := powerOf_powSum (ihl ha) hc m (mem_nonzero.mp hm).1
        exact hQ.pow hn hb hneg hwhole hlarge hpower
  | call f arg =>
    obtain ⟨p, a, hp, ha, rfl⟩ := expand_call.mp h
    intro m hm
    exact hQ.call hp ha (mem_nonzero.mp hm).1
  | unknown command =>
    rw [expand_unknown] at h
    cases h

theorem ofAttempt (hQ : TermInvariant Q) (e : Expr α) :
    ∀ m ∈ (Salvage.ofAttempt e.expand).terms, Q e m := by
  cases h : e.expand with
  | ok ts => exact hQ.expand h
  | error reason => exact fun m hm => absurd hm List.not_mem_nil

theorem summands (hQ : TermInvariant Q) (e : Expr α) : ∀ m ∈ e.summands.terms, Q e m := by
  induction e with
  | negate e ih => exact List.forall_mem_map.mpr fun m hm => hQ.negate (ih m hm)
  | binary op left right ihl ihr =>
    cases op with
    | add =>
      exact List.forall_mem_append.mpr
        ⟨fun m hm => hQ.addLeft (ihl m hm), fun m hm => hQ.addRight (ihr m hm)⟩
    | sub =>
      exact List.forall_mem_append.mpr ⟨fun m hm => hQ.subLeft (ihl m hm),
        List.forall_mem_map.mpr fun m hm => hQ.subRight (ihr m hm)⟩
    | mul =>
      intro m hm
      obtain ⟨a, ha, b, hb, hab⟩ := exists_factors_of_kept hm
      exact hQ.mul (ihl a ha) (ihr b hb) hab
    | div => exact hQ.ofAttempt (.binary .div left right)
    | pow => exact hQ.ofAttempt (.binary .pow left right)
  | number x => exact hQ.ofAttempt (.number x)
  | symbol name => exact hQ.ofAttempt (.symbol name)
  | call f arg => exact hQ.ofAttempt (.call f arg)
  | unknown command => exact hQ.ofAttempt (.unknown command)

theorem expandLenient (hQ : TermInvariant Q) (e : Expr α) : ∀ m ∈ e.expandLenient.terms, Q e m :=
  fun m hm => hQ.summands e m (mem_nonzero.mp hm).1

end TermInvariant

end Expr

end Oscillator
