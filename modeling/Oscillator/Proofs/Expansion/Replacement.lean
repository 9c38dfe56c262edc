import Oscillator.Proofs.Expansion.Substitution
import Oscillator.Proofs.Expansion.Tower

/-! # Values in place of symbols

A value can be put in place of all symbols before an expression is expanded, or in place of those that its
terms name. The terms are the same up to like ones that are added up, since a power of
constants is computed and not multiplied out.
-/
namespace Oscillator

open Exact Textual

namespace Expr

open Monomial

variable {p : ℝ} {e left right base base' exponent : Expr Exact}

/-- Whether the power of a constant `c` is also multiplied out of the base that has this value: the
exponent is one that sums are raised to, the base consists of constants, and the power is not zero. -/
def PowerIsMultiplied (base : Expr Exact) (c n : Exact) : Prop :=
  ∃ (k : ℕ) (x : ℝ), k ≤ maxPower ∧ n = (k : Exact) ∧ c = real x ∧ x ^ k ≠ 0 ∧
    ∃ ts, base.expand = .ok ts ∧ ∀ m ∈ ts, m.isConstant = true

/-- Whether powers whose bases become constant, with the value `x` in place of all symbols, are multiplied
out before too. -/
def KeepsPowers (x : Exact) : Expr Exact → Prop
  | negate e => e.KeepsPowers x
  | binary .pow base exponent => base.KeepsPowers x ∧ (base.IsClosed ∨
      ∀ c n, (base.replaceSymbols x).constantValue = some c → exponent.constantValue = some n →
        base.PowerIsMultiplied c n)
  | binary _ left right => left.KeepsPowers x ∧ right.KeepsPowers x
  | _ => True

theorem follows_of_isClosed (h : e.IsClosed) : Follows (Reduces p) e.expand e.expand := by
  cases he : e.expand with
  | ok ts => exact .ok (.of_nil fun m hm => h.symbols_eq_nil (namesSymbols_termInvariant.expand he m hm))
  | error reason => exact .error reason reason

theorem follows_symbol (hp : p ≠ 0) {name : String} (h : IsFree name) :
    Follows (Reduces p) (symbol name : Expr Exact).expand (number (real p)).expand := by
  have hsymbol : nonzero [Monomial.symbol (α := Exact) name] = [Monomial.symbol name] :=
    nonzero_eq_self.mpr (List.forall_mem_singleton.mpr (bne_zero_iff.mpr (by simp [Monomial.symbol])))
  have hnumber : nonzero [constant (real p)] = [constant (real p)] :=
    nonzero_eq_self.mpr (List.forall_mem_singleton.mpr (bne_zero_iff.mpr (by simpa [constant])))
  have hvalue : substitute (real p) (Monomial.symbol name) = constant (real p) := by
    rw [substitute, foldl_mul]
    simp [Monomial.symbol, constant]
  rw [expand_symbol, if_neg h.1, if_neg h.2, hsymbol, expand_number, hnumber]
  exact .ok (by rw [Reduces, List.map_singleton, hvalue]; exact .refl _)

theorem countsAll_of_mul {a b : Monomial Exact} (ha : left.NamesSymbols a)
    (hb : right.NamesSymbols b) (hc : p = 1 ∨ (binary .mul left right).IsMultilinear) :
    CountsAll p a b := by
  refine hc.imp_right fun hc => ⟨hb.1.imp ne_of_lt, fun name hleft hright => ?_⟩
  obtain ⟨hfree, hl⟩ := ha.2 name hleft
  obtain ⟨-, hr⟩ := hb.2 name hright
  have hle : left.degree name + right.degree name ≤ 1 := hc name hfree
  omega

/-! The powers that are multiplied out. -/

theorem constantValue_number (x : Exact) : (number x).constantValue = some x :=
  constantValue_eq_some.mpr ⟨_, rfl, Linear.isConstant_iff.mpr zero_eq, rfl⟩

/-- The symbols of a base that is raised to a power of at least two have the degree zero. -/
theorem counts_of_pow {k : ℕ}
    (hdegree : ∀ name, (binary .pow base exponent).degree name = base.degree name * max k 1)
    (hc : p = 1 ∨ (binary .pow base exponent).IsMultilinear) {ts : List (Monomial Exact)}
    (h : base.expand = .ok ts) :
    p = 1 ∨ k ≤ 1 ∧ (∀ m ∈ ts, m.symbols.Nodup) ∨ ∀ m ∈ ts, m.symbols = [] := by
  refine hc.imp_right fun hc => ?_
  have hnames := namesSymbols_termInvariant.expand h
  rcases le_or_gt k 1 with hk | hk
  · exact .inl ⟨hk, fun m hm => (hnames m hm).1.imp ne_of_lt⟩
  · refine .inr fun m hm => List.eq_nil_iff_forall_not_mem.mpr fun name hname => ?_
    obtain ⟨hfree, hpositive⟩ := (hnames m hm).2 name hname
    have hle := hc name hfree
    rw [hdegree, max_eq_left hk.le] at hle
    have := Nat.mul_le_mul hpositive hk
    omega

theorem follows_powSum {k : ℕ} (h : Follows (Reduces p) base.expand base'.expand)
    (hcounts : ∀ ts, base.expand = .ok ts →
      p = 1 ∨ k ≤ 1 ∧ (∀ m ∈ ts, m.symbols.Nodup) ∨ ∀ m ∈ ts, m.symbols = []) :
    Follows (Reduces p)
      (base.expand >>= fun ts => powSum ts k >>= fun us => .ok (nonzero us))
      (base'.expand >>= fun ts => powSum ts k >>= fun us => .ok (nonzero us)) := by
  refine h.bind fun ts us hts hus hreduces => follows_nonzero (hreduces.powSum (hcounts ts hts)) ?_ ?_
  · exact fun _ hsum => nonzero_powSum hsum (nonzero_of_expand hts)
  · exact fun _ hsum => nonzero_powSum hsum (nonzero_of_expand hus)

theorem isMultilinear_base {k : ℕ}
    (hdegree : ∀ name, (binary .pow base exponent).degree name = base.degree name * max k 1)
    (hc : p = 1 ∨ (binary .pow base exponent).IsMultilinear) : p = 1 ∨ base.IsMultilinear :=
  hc.imp_right fun hc => hc.mono fun name => by
    rw [hdegree]
    exact Nat.le_mul_of_pos_right _ (lt_max_of_lt_right Nat.one_pos)

/-- The powers of a sum have the powers of the constant that the sum is equal to as their values. -/
theorem sumValue_powSum_of_constantValue {x : ℝ} {k : ℕ} {ts us : List (Monomial Exact)}
    (hvalue : base.constantValue = some (real x)) (hts : base.expand = .ok ts)
    (hus : powSum ts k = .ok us) : sumValue us (real 0) = real (x ^ k) := by
  have hunit (vs : List (Monomial Exact)) : HasUnitSymbols (fun _ => real 1) vs := fun _ _ _ _ => rfl
  obtain ⟨⟨slope, _⟩, hlinear, hslope, rfl⟩ := constantValue_eq_some.mp hvalue
  obtain rfl : slope = real 0 := Linear.isConstant_iff.mp hslope
  have hbase : base.value (fun _ => real 1) (real 0) = real x := by
    rw [value_of_linearIn hlinear, mul_zero, zero_add]
  exact (hunit us).sumValue_powSum hus fun _ => expand_sumValue hts (hunit ts) hbase

theorem PowerIsMultiplied.supported {c n : Exact} (h : base.PowerIsMultiplied c n) :
    ¬(n < 0 || !Arithmetic.isWhole n || (maxPower : Exact) < n) = true := by
  obtain ⟨k, -, hk, rfl, -⟩ := h
  obtain ⟨hneg, hwhole, hlarge, -⟩ := count_supported hk
  rw [decide_eq_false hneg, hwhole, decide_eq_false hlarge]
  exact Bool.false_ne_true

/-- A base that is a sum of constants gives the powers of its value also where it is multiplied out. -/
theorem PowerIsMultiplied.follows {c n : Exact} (h : base.PowerIsMultiplied c n)
    (hbase : Follows (Reduces p) base.expand base'.expand) (hn : exponent.constantValue = some n)
    (hb : base.constantValue = none) (hc : base'.constantValue = some c)
    (hcounts : ∀ ts, base.expand = .ok ts → p = 1 ∨
      Arithmetic.toCount n ≤ 1 ∧ (∀ m ∈ ts, m.symbols.Nodup) ∨ ∀ m ∈ ts, m.symbols = []) :
    Follows (Reduces p) (binary .pow base exponent).expand (binary .pow base' exponent).expand := by
  have hguard := h.supported
  obtain ⟨k, x, hk, rfl, rfl, hne, ts, hts, hconstant⟩ := h
  obtain ⟨-, -, -, hcount⟩ := count_supported hk
  rw [hts] at hbase
  rw [hcount] at hcounts
  obtain ⟨ts', hts', hreduces⟩ := hbase.exists_ok
  obtain ⟨us, us', hus, hus', hsum, hconstant'⟩ :=
    exists_powSum_of_isConstant hreduces hconstant (hcounts ts hts)
  have hpower : Arithmetic.pow (real x) (k : Exact) = real (x ^ k) := by
    rw [natCast_eq, pow_real, power_natCast]
  have hnonzero : nonzero [constant (real (x ^ k))] = [constant (real (x ^ k))] :=
    nonzero_eq_self.mpr (List.forall_mem_singleton.mpr (bne_zero_iff.mpr fun h => hne (real.inj h)))
  have hleft : (binary .pow base exponent).expand = .ok us := by
    rw [expand_pow_supported hn hb hguard, hts, hcount, Except.ok_bind, hus, Except.ok_bind,
      nonzero_powSum hus (nonzero_of_expand hts)]
  have hright : (binary .pow base' exponent).expand = .ok [constant (real (x ^ k))] :=
    expand_pow.mpr ⟨_, hn, .inl ⟨_, hc, by rw [hpower, hnonzero]⟩⟩
  rw [hleft, hright]
  exact .ok (Merges.trans hsum
    (merges_constant hconstant' (sumValue_powSum_of_constantValue hc hts' hus') hne))

theorem nonzero_mulSums {ts us vs : List (Monomial Exact)} (h : Monomial.mulSums ts us = .ok vs)
    (hts : nonzero ts = ts) (hus : nonzero us = us) : nonzero vs = vs :=
  nonzero_products (mulSums_eq_ok.mp h) hts hus

theorem follows_divided (h : Follows (Reduces p) e.expand left.expand) (us : List (Monomial Exact)) :
    Follows (Reduces p) (divided e.expand us) (divided left.expand us) := by
  rcases us with _ | ⟨d, _ | ⟨d', us⟩⟩
  · exact .error _ _
  · refine Follows.bind_same fun r hr => h.bind fun ts ts' hts hts' hreduces => ?_
    have hnonzero := nonzero_reciprocal hr
    have hnil : ∀ b ∈ [r], b.symbols = [] := by
      obtain ⟨-, -, -, rfl⟩ := reciprocal_eq_ok.mp hr
      exact List.forall_mem_singleton.mpr rfl
    have hproducts := hreduces.mulSums (.of_nil hnil) fun a _ b hb => by
      rw [CountsAll, hnil b hb]
      exact .inr ⟨List.nodup_nil, List.disjoint_nil_right _⟩
    refine follows_nonzero hproducts ?_ ?_
    · exact fun _ h => nonzero_mulSums h (nonzero_of_expand hts) hnonzero
    · exact fun _ h => nonzero_mulSums h (nonzero_of_expand hts') hnonzero
  · exact .error _ _

/-- An expression with values in place of its symbols expands to the terms that get these values otherwise,
and fails to where it fails otherwise. -/
theorem follows_replaceSymbols (hp : p ≠ 0) (hf : e.SymbolsAreFactors) (hk : e.KeepsPowers (real p))
    (hc : p = 1 ∨ e.IsMultilinear) :
    Follows (Reduces p) e.expand (e.replaceSymbols (real p)).expand := by
  induction e with
  | number x => exact follows_of_isClosed trivial
  | symbol name =>
    rw [replaceSymbols]
    split_ifs with hfree
    · exact follows_symbol hp hfree
    · exact follows_of_isClosed hfree
  | unknown command => exact follows_of_isClosed trivial
  | call f arg =>
    have hclosed : (call f arg).IsClosed := hf
    rw [hclosed.replaceSymbols_eq]
    exact follows_of_isClosed hclosed
  | negate e ih =>
    rw [replaceSymbols, expand_negate_eq, expand_negate_eq]
    exact (ih hf hk hc).bind fun _ _ _ _ h => .ok h.negate
  | binary op left right ihl ihr =>
    cases op with
    | add =>
      have hl := ihl hf.1 hk.1 (hc.imp_right fun hc => hc.mono fun _ => le_max_left _ _)
      have hr := ihr hf.2 hk.2 (hc.imp_right fun hc => hc.mono fun _ => le_max_right _ _)
      rw [replaceSymbols, expand_add_eq, expand_add_eq]
      exact hl.bind fun _ _ _ _ hl => hr.bind fun _ _ _ _ hr => .ok (hl.append hr)
    | sub =>
      have hl := ihl hf.1 hk.1 (hc.imp_right fun hc => hc.mono fun _ => le_max_left _ _)
      have hr := ihr hf.2 hk.2 (hc.imp_right fun hc => hc.mono fun _ => le_max_right _ _)
      rw [replaceSymbols, expand_sub_eq, expand_sub_eq]
      exact hl.bind fun _ _ _ _ hl => hr.bind fun _ _ _ _ hr => .ok (hl.append hr.negate)
    | mul =>
      have hl := ihl hf.1 hk.1 (hc.imp_right fun hc => hc.mono fun _ => Nat.le_add_right _ _)
      have hr := ihr hf.2 hk.2 (hc.imp_right fun hc => hc.mono fun _ => Nat.le_add_left _ _)
      rw [replaceSymbols, expand_mul_eq, expand_mul_eq]
      refine hl.bind fun ts ts' hts hts' hl => hr.bind fun us us' hus hus' hr => ?_
      have hproducts := hl.mulSums hr fun a ha b hb => countsAll_of_mul
        (namesSymbols_termInvariant.expand hts a ha) (namesSymbols_termInvariant.expand hus b hb) hc
      refine follows_nonzero hproducts ?_ ?_
      · exact fun _ h => nonzero_mulSums h (nonzero_of_expand hts) (nonzero_of_expand hus)
      · exact fun _ h => nonzero_mulSums h (nonzero_of_expand hts') (nonzero_of_expand hus')
    | div =>
      have hl := ihl hf.1 hk.1 (hc.imp_right fun hc => hc.mono fun _ => Nat.le_add_right _ _)
      rw [replaceSymbols, hf.2.replaceSymbols_eq, expand_div_eq, expand_div_eq]
      exact Follows.bind_same fun us _ => follows_divided hl us
    | pow =>
      rw [replaceSymbols, hf.2.replaceSymbols_eq]
      cases hn : right.constantValue with
      | none =>
        rw [expand_pow_eq, expand_pow_eq, hn]
        exact .error _ _
      | some n =>
        by_cases hclosed : left.IsClosed
        · rw [hclosed.replaceSymbols_eq]
          exact follows_of_isClosed ⟨hclosed, hf.2⟩
        have hb : left.constantValue = none :=
          Option.eq_none_iff_forall_ne_some.mpr fun c h => hclosed (isClosed_of_constantValue h)
        have hmultiplied := hk.2.resolve_left hclosed
        by_cases hguard : (n < 0 || !Arithmetic.isWhole n || (maxPower : Exact) < n) = true
        · have hb' : (left.replaceSymbols (real p)).constantValue = none :=
            Option.eq_none_iff_forall_ne_some.mpr fun c h => (hmultiplied c n h hn).supported hguard
          rw [expand_pow_unsupported hn hb hguard, expand_pow_unsupported hn hb' hguard]
          exact .error _ _
        have hdegree := degree_pow_supported hn hb hguard
        have hl := ihl hf.1 hk.1 (isMultilinear_base hdegree hc)
        have hcounts (ts : List (Monomial Exact)) (hts : left.expand = .ok ts) := counts_of_pow hdegree hc hts
        cases hb' : (left.replaceSymbols (real p)).constantValue with
        | none =>
          rw [expand_pow_supported hn hb hguard, expand_pow_supported hn hb' hguard]
          exact follows_powSum hl hcounts
        | some c => exact (hmultiplied c n hb' hn).follows hl hn hb hb' hcounts

/-! The same for the summands that are kept, of which none is zero. -/

theorem nonzero_kept {ts us : List (Monomial Exact)} (hts : nonzero ts = ts) (hus : nonzero us = us) :
    nonzero (kept ts us) = kept ts us := by
  rw [← filterMap_products]
  refine nonzero_eq_self.mpr fun m hm => ?_
  obtain ⟨a, ha, b, hb, hab⟩ := exists_factors_of_kept hm
  obtain ⟨-, rfl⟩ := mul_eq_ok.mp hab
  exact Arithmetic.KeepsNonzero.mul (nonzero_eq_self.mp hts a ha) (nonzero_eq_self.mp hus b hb)

theorem nonzero_ofAttempt (e : Expr Exact) :
    nonzero (Salvage.ofAttempt e.expand).terms = (Salvage.ofAttempt e.expand).terms := by
  cases h : e.expand with
  | ok ts => exact nonzero_of_expand h
  | error reason => rfl

theorem nonzero_summands (e : Expr Exact) : nonzero e.summands.terms = e.summands.terms := by
  induction e with
  | number x => exact nonzero_ofAttempt (number x)
  | symbol name => exact nonzero_ofAttempt (symbol name)
  | unknown command => rfl
  | call f arg => exact nonzero_ofAttempt (call f arg)
  | negate e ih => exact nonzero_negate ih
  | binary op left right ihl ihr =>
    cases op with
    | add => exact nonzero_append ihl ihr
    | sub => exact nonzero_append ihl (nonzero_negate ihr)
    | mul =>
      rw [summands, filterMap_products]
      exact nonzero_kept ihl ihr
    | div => exact nonzero_ofAttempt (binary .div left right)
    | pow => exact nonzero_ofAttempt (binary .pow left right)

theorem reduces_ofAttempt {x y : Except (Rejection Exact) (List (Monomial Exact))}
    (h : Follows (Reduces p) x y) :
    Reduces p (Salvage.ofAttempt x).terms (Salvage.ofAttempt y).terms := by
  cases h with
  | ok h => exact h
  | error reason reason' => exact .of_nil fun m hm => absurd hm List.not_mem_nil

theorem reduces_summands (hp : p ≠ 0) (hf : e.SymbolsAreFactors) (hk : e.KeepsPowers (real p))
    (hc : p = 1 ∨ e.IsMultilinear) :
    Reduces p e.summands.terms (e.replaceSymbols (real p)).summands.terms := by
  have hattempt {e : Expr Exact} (hf : e.SymbolsAreFactors) (hk : e.KeepsPowers (real p))
      (hc : p = 1 ∨ e.IsMultilinear) := reduces_ofAttempt (follows_replaceSymbols hp hf hk hc)
  induction e with
  | number x => exact hattempt (e := number x) hf hk hc
  | symbol name =>
    have h := hattempt (e := symbol name) hf hk hc
    rw [replaceSymbols] at h ⊢
    split_ifs at h ⊢ <;> exact h
  | unknown command => exact hattempt (e := unknown command) hf hk hc
  | call f arg => exact hattempt (e := call f arg) hf hk hc
  | negate e ih => exact (ih hf hk hc).negate
  | binary op left right ihl ihr =>
    cases op with
    | add =>
      have hl := ihl hf.1 hk.1 (hc.imp_right fun hc => hc.mono fun _ => le_max_left _ _)
      have hr := ihr hf.2 hk.2 (hc.imp_right fun hc => hc.mono fun _ => le_max_right _ _)
      exact hl.append hr
    | sub =>
      have hl := ihl hf.1 hk.1 (hc.imp_right fun hc => hc.mono fun _ => le_max_left _ _)
      have hr := ihr hf.2 hk.2 (hc.imp_right fun hc => hc.mono fun _ => le_max_right _ _)
      exact hl.append hr.negate
    | mul =>
      have hl := ihl hf.1 hk.1 (hc.imp_right fun hc => hc.mono fun _ => Nat.le_add_right _ _)
      have hr := ihr hf.2 hk.2 (hc.imp_right fun hc => hc.mono fun _ => Nat.le_add_left _ _)
      rw [replaceSymbols, summands, summands, filterMap_products, filterMap_products]
      exact hl.kept hr fun a ha b hb => countsAll_of_mul
        (namesSymbols_termInvariant.summands left a ha) (namesSymbols_termInvariant.summands right b hb) hc
    | div => exact hattempt (e := binary .div left right) hf hk hc
    | pow => exact hattempt (e := binary .pow left right) hf hk hc

/-- The terms that are kept of an expression with values in place of its symbols. -/
theorem reduces_expandLenient (hp : p ≠ 0) (hf : e.SymbolsAreFactors) (hk : e.KeepsPowers (real p))
    (hc : p = 1 ∨ e.IsMultilinear) :
    Reduces p e.expandLenient.terms (e.replaceSymbols (real p)).expandLenient.terms := by
  rw [expandLenient, expandLenient, nonzero_summands, nonzero_summands]
  exact reduces_summands hp hf hk hc

end Expr

end Oscillator
