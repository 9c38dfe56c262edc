import Mathlib.Data.String.Basic
import Oscillator.Proofs.Expansion.Degree

/-! # Symbols

The symbols of an expression are its names other than those of time and of Euler's number. Every term of
an expansion names symbols of the expression, in the order of names and each once, and only those of a
positive degree. Numbers can be put in place of all symbols.
-/
namespace Oscillator

namespace Names

variable {name : String} {ns left right : Names}

theorem sorted_insert (name : String) (h : ns.Pairwise (· < ·)) : (insert name ns).Pairwise (· < ·) := by
  induction ns with
  | nil => exact List.pairwise_singleton _ _
  | cons n ns ih =>
    obtain ⟨hn, hns⟩ := List.pairwise_cons.mp h
    rw [insert]
    split_ifs with hlt heq
    · have hall : ∀ a ∈ n :: ns, name < a :=
        List.forall_mem_cons.mpr ⟨hlt, fun a ha => hlt.trans (hn a ha)⟩
      exact List.pairwise_cons.mpr ⟨hall, h⟩
    · exact h
    · refine List.pairwise_cons.mpr ⟨fun a ha => ?_, ih hns⟩
      rcases mem_insert.mp ha with rfl | ha
      · exact (not_lt.mp hlt).lt_of_ne' heq
      · exact hn a ha

theorem sorted_union (h : left.Pairwise (· < ·)) (right : Names) :
    (union left right).Pairwise (· < ·) := by
  induction right generalizing left with
  | nil => exact h
  | cons n ns ih => exact ih (sorted_insert n h)

theorem length_insert (h : name ∉ ns) : (insert name ns).length = ns.length + 1 := by
  induction ns with
  | nil => rfl
  | cons n ns ih =>
    obtain ⟨hne, hns⟩ := List.ne_and_not_mem_of_not_mem_cons h
    rw [insert]
    split_ifs with hlt
    · rfl
    · rw [List.length_cons, ih hns, List.length_cons]

/-- Nothing coincides in a union of names that are all different. -/
theorem length_union (hr : right.Nodup) (h : left.Disjoint right) :
    (union left right).length = left.length + right.length := by
  induction right generalizing left with
  | nil => rfl
  | cons n ns ih =>
    obtain ⟨hn, hns⟩ := List.nodup_cons.mp hr
    obtain ⟨hleft, hdisjoint⟩ := List.disjoint_cons_right.mp h
    have hinsert : (insert n left).Disjoint ns := by
      intro a ha ha'
      rcases mem_insert.mp ha with rfl | ha
      · exact hn ha'
      · exact hdisjoint ha ha'
    change (union (insert n left) ns).length = _
    rw [ih hns hinsert, length_insert hleft, List.length_cons]
    omega

end Names

variable {α : Type}

namespace Expr

/-- Whether a name stands for a constant without a value. -/
def IsFree (name : String) : Prop := name ≠ timeName ∧ name ≠ eulerName

instance (name : String) : Decidable (IsFree name) :=
  inferInstanceAs (Decidable (name ≠ timeName ∧ name ≠ eulerName))

/-- Whether no symbol occurs. -/
def IsClosed : Expr α → Prop
  | symbol name => ¬IsFree name
  | negate e => e.IsClosed
  | binary _ left right => left.IsClosed ∧ right.IsClosed
  | call _ arg => arg.IsClosed
  | _ => True

/-- Whether symbols are only added, multiplied and raised to powers: there is none in a divisor, in an
exponent or in the argument of a function. -/
def SymbolsAreFactors : Expr α → Prop
  | negate e => e.SymbolsAreFactors
  | binary .div left right => left.SymbolsAreFactors ∧ right.IsClosed
  | binary .pow base exponent => base.SymbolsAreFactors ∧ exponent.IsClosed
  | binary _ left right => left.SymbolsAreFactors ∧ right.SymbolsAreFactors
  | call _ arg => arg.IsClosed
  | _ => True

/-- The expression with a number in place of every symbol. -/
def replaceSymbols (x : α) : Expr α → Expr α
  | symbol name => if IsFree name then number x else symbol name
  | negate e => negate (e.replaceSymbols x)
  | binary op left right => binary op (left.replaceSymbols x) (right.replaceSymbols x)
  | call f arg => call f (arg.replaceSymbols x)
  | e => e

theorem IsClosed.replaceSymbols_eq {e : Expr α} (h : e.IsClosed) (x : α) : e.replaceSymbols x = e := by
  induction e with
  | number y => rfl
  | symbol name => exact if_neg h
  | negate e ih => exact congrArg negate (ih h)
  | binary op left right ihl ihr => exact congrArg₂ (binary op) (ihl h.1) (ihr h.2)
  | call f arg ih => exact congrArg (call f) (ih h)
  | unknown command => rfl

theorem isClosed_replaceSymbols (e : Expr α) (x : α) : (e.replaceSymbols x).IsClosed := by
  induction e with
  | number y => trivial
  | symbol name =>
    rw [replaceSymbols]
    split_ifs with h
    · trivial
    · exact h
  | negate e ih => exact ih
  | binary op left right ihl ihr => exact ⟨ihl, ihr⟩
  | call f arg ih => exact ih
  | unknown command => trivial

variable [Arithmetic α]

theorem isClosed_of_linearIn {e : Expr α} {p : Linear α} (h : e.linearIn timeName = some p) :
    e.IsClosed := by
  induction e generalizing p with
  | number x => trivial
  | symbol name =>
    rintro ⟨ht, he⟩
    rw [linearIn_symbol, if_neg ht, if_neg he] at h
    cases h
  | negate e ih =>
    obtain ⟨q, hq, -⟩ := linearIn_negate.mp h
    exact ih hq
  | binary op left right ihl ihr =>
    obtain ⟨q, r, hq, hr, -⟩ := linearIn_binary.mp h
    exact ⟨ihl hq, ihr hr⟩
  | call f arg ih =>
    obtain ⟨q, hq, -⟩ := linearIn_call.mp h
    exact ih hq
  | unknown command => cases h

theorem isClosed_of_constantValue {e : Expr α} {c : α} (h : e.constantValue = some c) : e.IsClosed :=
  have ⟨_, hp, _⟩ := constantValue_eq_some.mp h
  isClosed_of_linearIn hp

/-- Whether the degree in every symbol is at most one. -/
def IsMultilinear (e : Expr α) : Prop := ∀ name, IsFree name → e.degree name ≤ 1

theorem IsMultilinear.mono {e e' : Expr α} (h : e'.IsMultilinear)
    (hle : ∀ name, e.degree name ≤ e'.degree name) : e.IsMultilinear :=
  fun name hname => (hle name).trans (h name hname)

theorem IsClosed.degree_eq {e : Expr α} (h : e.IsClosed) {name : String} (hname : IsFree name) :
    e.degree name = 0 := by
  induction e with
  | number x => rfl
  | symbol s => exact if_neg fun hs : s = name => h (hs.symm ▸ hname)
  | negate e ih => exact ih h
  | binary op left right ihl ihr =>
    have hl := ihl h.1
    have hr := ihr h.2
    cases op with
    | add => rw [degree, hl, hr, max_self]
    | sub => rw [degree, hl, hr, max_self]
    | mul => rw [degree, hl, hr]
    | div => rw [degree, hl, hr]
    | pow =>
      rw [degree, hl]
      split
      · rw [zero_mul, ite_self]
      · rfl
  | call f arg => rfl
  | unknown command => rfl

open Monomial

/-- The names of a term are sorted, and symbols of a positive degree. -/
def NamesSymbols (e : Expr α) (m : Monomial α) : Prop :=
  m.symbols.Pairwise (· < ·) ∧ ∀ name ∈ m.symbols, IsFree name ∧ 0 < e.degree name

theorem NamesSymbols.of_nil {e : Expr α} {m : Monomial α} (h : m.symbols = []) : e.NamesSymbols m := by
  rw [NamesSymbols, h]
  exact ⟨List.Pairwise.nil, fun name hname => absurd hname List.not_mem_nil⟩

theorem NamesSymbols.mono {e e' : Expr α} {m : Monomial α} (h : e.NamesSymbols m)
    (hle : ∀ name, e.degree name ≤ e'.degree name) : e'.NamesSymbols m :=
  ⟨h.1, fun name hname => ⟨(h.2 name hname).1, (h.2 name hname).2.trans_le (hle name)⟩⟩

/-- A product names what its factors name. -/
theorem NamesSymbols.mul {e : Expr α} {a b m : Monomial α} (ha : e.NamesSymbols a) (hb : e.NamesSymbols b)
    (h : a.mul b = .ok m) : e.NamesSymbols m := by
  obtain ⟨-, rfl⟩ := mul_eq_ok.mp h
  refine ⟨Names.sorted_union ha.1 b.symbols, fun name hname => ?_⟩
  rcases Names.mem_union.mp hname with h | h
  · exact ha.2 name h
  · exact hb.2 name h

theorem NamesSymbols.of_powerOf {e : Expr α} {n : ℕ} {m : Monomial α} (h : PowerOf e.NamesSymbols n m) :
    e.NamesSymbols m := by
  induction h with
  | one => exact .of_nil rfl
  | mul _ hb hm ih => exact ih.mul hb hm

theorem namesSymbols_termInvariant : TermInvariant (α := α) NamesSymbols where
  number x := .of_nil rfl
  time := .of_nil rfl
  euler := .of_nil rfl
  symbol {name} ht he := by
    refine ⟨List.pairwise_singleton _ _, List.forall_mem_singleton.mpr ⟨⟨ht, he⟩, ?_⟩⟩
    rw [degree, if_pos rfl]
    exact Nat.one_pos
  negate h := h
  addLeft h := h.mono fun _ => le_max_left _ _
  addRight h := h.mono fun _ => le_max_right _ _
  subLeft h := h.mono fun _ => le_max_left _ _
  subRight h := NamesSymbols.mono h fun _ => le_max_right _ _
  mul ha hb hm := (ha.mono fun _ => Nat.le_add_right _ _).mul (hb.mono fun _ => Nat.le_add_left _ _) hm
  div {left right a d r m} ha hd hr hm := by
    obtain ⟨-, -, -, rfl⟩ := reciprocal_eq_ok.mp hr
    have hleft : (binary .div left right).NamesSymbols a := ha.mono fun _ => Nat.le_add_right _ _
    exact hleft.mul (.of_nil rfl) hm
  powConstant base exponent c := .of_nil rfl
  pow hn hb hneg hwhole hlarge hm := (NamesSymbols.of_powerOf hm).mono fun name => by
    rw [degree_pow hn hb hneg hwhole hlarge]
    exact Nat.le_mul_of_pos_right _ (lt_max_of_lt_right Nat.one_pos)
  call _ h hm := .of_nil (plain_of_expandCall h hm).2

theorem IsClosed.symbols_eq_nil {e : Expr α} (h : e.IsClosed) {m : Monomial α} (hm : e.NamesSymbols m) :
    m.symbols = [] := by
  refine List.eq_nil_iff_forall_not_mem.mpr fun name hname => ?_
  obtain ⟨hfree, hdegree⟩ := hm.2 name hname
  rw [h.degree_eq hfree] at hdegree
  exact absurd hdegree (Nat.lt_irrefl 0)

end Expr

end Oscillator
