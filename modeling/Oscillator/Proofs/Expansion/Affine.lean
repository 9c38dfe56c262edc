import Oscillator.Proofs.Expansion.Meaning

/-! # Linear readings and expansions

An expression that can be read as `a t + b` is expanded to terms that denote the same, as long as it
divides by single terms only. The expansion does not add constants up before it divides by them,
and so a divisor such as `1 + 1` counts as a sum; the linear reader divides by its value. This is the
one difference between the two.
-/
namespace Oscillator

open Exact Monomial

variable {σ : String → Exact} {t : ℝ}

theorem Exact.pow_eq_real {a b : Exact} {z : ℝ} : Arithmetic.pow a b = real z ↔
    ∃ x y, a = real x ∧ b = real y ∧ power x y = real z := by
  cases a with
  | undefined => exact ⟨fun h => (by cases h), by simp⟩
  | real x =>
    cases b with
    | undefined => exact ⟨fun h => (by cases h), by simp⟩
    | real y => simp

namespace Linear

theorem isConstant_iff {p : Linear Exact} : p.isConstant = true ↔ p.slope = real 0 := by
  rw [isConstant, zero_eq, beq_real_iff]

theorem constant_eq_real {x : Exact} {a b : ℝ} :
    constant x = ⟨real a, real b⟩ ↔ a = 0 ∧ x = real b := by
  rw [constant, Linear.mk.injEq, zero_eq, Exact.real.injEq, eq_comm]

/-- What combines to a reading of real numbers is made of such readings, and denotes the result of the
operation. -/
theorem combine?_eq_real {op : Op} {p q : Linear Exact} {a b : ℝ}
    (h : combine? op p q = some ⟨real a, real b⟩) :
    ∃ a₁ b₁ a₂ b₂ : ℝ, p = ⟨real a₁, real b₁⟩ ∧ q = ⟨real a₂, real b₂⟩ ∧
      ∀ t : ℝ, op.apply (real (a₁ * t + b₁)) (real (a₂ * t + b₂)) = real (a * t + b) := by
  obtain ⟨p₁, p₂⟩ := p
  obtain ⟨q₁, q₂⟩ := q
  cases op with
  | add =>
    simp only [combine?, Option.some.injEq, Linear.mk.injEq] at h
    obtain ⟨a₁, a₂, rfl, rfl, rfl⟩ := add_eq_real.mp h.1
    obtain ⟨b₁, b₂, rfl, rfl, rfl⟩ := add_eq_real.mp h.2
    refine ⟨a₁, b₁, a₂, b₂, rfl, rfl, fun t => ?_⟩
    rw [Op.apply, real_add]
    ring_nf
  | sub =>
    simp only [combine?, Option.some.injEq, Linear.mk.injEq] at h
    obtain ⟨a₁, a₂, rfl, rfl, rfl⟩ := sub_eq_real.mp h.1
    obtain ⟨b₁, b₂, rfl, rfl, rfl⟩ := sub_eq_real.mp h.2
    refine ⟨a₁, b₁, a₂, b₂, rfl, rfl, fun t => ?_⟩
    rw [Op.apply, real_sub]
    ring_nf
  | mul =>
    simp only [combine?] at h
    by_cases hp : isConstant ⟨p₁, p₂⟩ = true
    · obtain rfl : p₁ = real 0 := isConstant_iff.mp hp
      rw [if_pos hp, Option.some.injEq, Linear.mk.injEq] at h
      obtain ⟨b₁, a₂, rfl, rfl, rfl⟩ := mul_eq_real.mp h.1
      obtain ⟨_, b₂, hb, rfl, rfl⟩ := mul_eq_real.mp h.2
      cases hb
      refine ⟨0, b₁, a₂, b₂, rfl, rfl, fun t => ?_⟩
      rw [Op.apply, real_mul]
      ring_nf
    · rw [if_neg hp, Option.ite_none_right_eq_some, Option.some.injEq, Linear.mk.injEq] at h
      obtain ⟨hq, h⟩ := h
      obtain rfl : q₁ = real 0 := isConstant_iff.mp hq
      obtain ⟨a₁, b₂, rfl, rfl, rfl⟩ := mul_eq_real.mp h.1
      obtain ⟨b₁, _, rfl, hb, rfl⟩ := mul_eq_real.mp h.2
      cases hb
      refine ⟨a₁, b₁, 0, b₂, rfl, rfl, fun t => ?_⟩
      rw [Op.apply, real_mul]
      ring_nf
  | div =>
    rw [combine?, Option.ite_none_right_eq_some, Option.some.injEq, Linear.mk.injEq,
      Bool.and_eq_true_iff] at h
    obtain ⟨⟨hq, -⟩, h⟩ := h
    obtain rfl : q₁ = real 0 := isConstant_iff.mp hq
    obtain ⟨a₁, b₂, rfl, rfl, hne, rfl⟩ := div_eq_real.mp h.1
    obtain ⟨b₁, _, rfl, hb, -, rfl⟩ := div_eq_real.mp h.2
    cases hb
    refine ⟨a₁, b₁, 0, b₂, rfl, rfl, fun t => ?_⟩
    rw [zero_mul, zero_add, Op.apply, real_div hne]
    ring_nf
  | pow =>
    rw [combine?, Option.ite_none_right_eq_some, Option.some.injEq, constant_eq_real,
      Bool.and_eq_true_iff] at h
    obtain ⟨⟨hp, hq⟩, rfl, hb⟩ := h
    obtain rfl : p₁ = real 0 := isConstant_iff.mp hp
    obtain rfl : q₁ = real 0 := isConstant_iff.mp hq
    obtain ⟨b₁, b₂, rfl, rfl, hpow⟩ := pow_eq_real.mp hb
    refine ⟨0, b₁, 0, b₂, rfl, rfl, fun t => ?_⟩
    rw [zero_mul, zero_add, zero_add, zero_add, Op.apply, pow_real, hpow]

end Linear

namespace Expr

/-- A linear reading of real numbers denotes the expression at every time. -/
theorem value_of_linearIn {e : Expr Exact} {a b : ℝ}
    (h : e.linearIn timeName = some ⟨real a, real b⟩) (t : ℝ) :
    e.value σ (real t) = real (a * t + b) := by
  induction e generalizing a b with
  | number x =>
    obtain ⟨rfl, rfl⟩ := Linear.constant_eq_real.mp (Option.some.inj h)
    rw [zero_mul, zero_add]
    rfl
  | symbol name =>
    rw [linearIn_symbol] at h
    rw [value_symbol]
    by_cases ht : name = timeName
    · rw [if_pos ht, one_eq, zero_eq] at h
      cases h
      rw [if_pos ht, one_mul, add_zero]
    · rw [if_neg ht] at h ⊢
      obtain ⟨he, h⟩ := Option.ite_none_right_eq_some.mp h
      obtain ⟨rfl, hb⟩ := Linear.constant_eq_real.mp (Option.some.inj h)
      rw [if_pos he, hb, zero_mul, zero_add]
  | negate e ih =>
    obtain ⟨⟨p, q⟩, he, hneg⟩ := linearIn_negate.mp h
    obtain ⟨hp, hq⟩ := Linear.mk.inj hneg
    obtain rfl := neg_eq_real.mp hp
    obtain rfl := neg_eq_real.mp hq
    change -e.value σ (real t) = _
    rw [ih he, real_neg]
    ring_nf
  | binary op left right ihl ihr =>
    obtain ⟨p, q, hp, hq, hcombine⟩ := linearIn_binary.mp h
    obtain ⟨a₁, b₁, a₂, b₂, rfl, rfl, hop⟩ := Linear.combine?_eq_real hcombine
    rw [value_binary, ihl hp, ihr hq, hop]
  | call f arg ih =>
    obtain ⟨⟨p, q⟩, hq, hcall⟩ := linearIn_call.mp h
    obtain ⟨hp, -, hf⟩ := call?_eq_some.mp hcall
    obtain rfl : p = real 0 := Linear.isConstant_iff.mp hp
    obtain ⟨rfl, hb⟩ := Linear.constant_eq_real.mp hf
    obtain ⟨y, rfl⟩ := exists_real_of_apply hb
    rw [value_call, ih hq, zero_mul, zero_add, zero_add]
    exact hb
  | unknown command => cases h

end Expr

/-! Without a value to speak of, a linear reading still tells whether the expansion succeeds. -/

variable {α : Type} [Arithmetic α]

theorem Except.bind_bind_eq_error {ε β γ δ : Type} {x : Except ε β} {y : Except ε γ}
    {k : β → γ → Except ε δ} {err : ε} (h : x = .error err ∨ ∃ a, x = .ok a ∧ y = .error err) :
    (x >>= fun a => y >>= k a) = .error err := by
  rcases h with rfl | ⟨a, rfl, rfl⟩ <;> rfl

namespace Monomial

/-- A term that can divide: it neither oscillates nor names a symbol. -/
def IsPlain (m : Monomial α) : Prop := m.oscillation = none ∧ m.symbols = []

variable {m a b : Monomial α} {left right ts : List (Monomial α)}

theorem IsPlain.mul (ha : a.IsPlain) (hb : b.IsPlain) (h : a.mul b = .ok m) : m.IsPlain := by
  obtain ⟨-, rfl⟩ := mul_eq_ok.mp h
  refine ⟨?_, ?_⟩
  · rw [ha.1, hb.1]
    rfl
  · rw [ha.2, hb.2]
    rfl

theorem IsPlain.exists_reciprocal (hm : m.IsPlain) (hc : (m.coefficient != 0) = true) :
    ∃ r, m.reciprocal = .ok r := by
  have hzero : (m.coefficient == 0) = false := by rwa [bne, Bool.not_eq_true'] at hc
  exact ⟨_, reciprocal_eq_ok.mpr ⟨hm.1, hm.2, hzero, rfl⟩⟩

theorem isPlain_nonzero_singleton (hm : m.IsPlain) : ∀ m' ∈ nonzero [m], m'.IsPlain := by
  intro m' hm'
  rw [List.mem_singleton.mp (mem_nonzero.mp hm').1]
  exact hm

theorem isPlain_negate (h : ∀ m ∈ ts, m.IsPlain) : ∀ m ∈ ts.map Monomial.negate, m.IsPlain := by
  intro m hm
  obtain ⟨a, ha, rfl⟩ := List.mem_map.mp hm
  exact h a ha

theorem isPlain_products (h : products left right = ts.map .ok) (hl : ∀ a ∈ left, a.IsPlain)
    (hr : ∀ b ∈ right, b.IsPlain) : ∀ m ∈ nonzero ts, m.IsPlain := by
  intro m hm
  obtain ⟨a, ha, b, hb, hab⟩ := exists_factors h (mem_nonzero.mp hm).1
  exact (hl a ha).mul (hr b hb) hab

/-- Nothing fails to be multiplied by terms that do not oscillate. -/
theorem exists_products (left : List (Monomial α)) (hr : ∀ b ∈ right, b.oscillation = none) :
    ∃ ts : List (Monomial α), products left right = ts.map .ok := by
  have hmem : products left right ∈ Set.range (List.map Except.ok) := by
    rw [Set.range_list_map]
    intro x hx
    obtain ⟨a, -, hx⟩ := List.mem_flatMap.mp hx
    obtain ⟨b, hb, rfl⟩ := List.mem_map.mp hx
    exact ⟨_, (mul_eq_ok.mpr ⟨Or.inr (hr b hb), rfl⟩).symm⟩
  obtain ⟨ts, hts⟩ := hmem
  exact ⟨ts, hts.symm⟩

end Monomial

namespace Expr

variable {e left right : Expr α} {f : Func} {p : Linear α} {ts : List (Monomial α)}

/-- Whatever an expression divides by expands to a single term. Inside powers and arguments, which are
not expanded, it does not matter. -/
def DividesByTerms : Expr α → Prop
  | negate e => e.DividesByTerms
  | binary .div left right => left.DividesByTerms ∧ ∃ d, right.expand = .ok [d]
  | binary .pow _ _ => True
  | binary _ left right => left.DividesByTerms ∧ right.DividesByTerms
  | _ => True

/-- A linear reading has no waves and no symbols, and its expansion has none either. -/
theorem isPlain_of_linearIn (hp : e.linearIn timeName = some p) (h : e.expand = .ok ts) :
    ∀ m ∈ ts, m.IsPlain := by
  induction e generalizing p ts with
  | number x =>
    rw [expand_number] at h
    cases h
    exact isPlain_nonzero_singleton ⟨rfl, rfl⟩
  | symbol name =>
    rw [linearIn_symbol] at hp
    rw [expand_symbol] at h
    cases h
    apply isPlain_nonzero_singleton
    by_cases ht : name = timeName
    · rw [if_pos ht]
      exact ⟨rfl, rfl⟩
    · rw [if_neg ht] at hp ⊢
      obtain ⟨he, -⟩ := Option.ite_none_right_eq_some.mp hp
      rw [if_pos he]
      exact ⟨rfl, rfl⟩
  | negate e ih =>
    obtain ⟨q, hq, -⟩ := linearIn_negate.mp hp
    obtain ⟨a, ha, rfl⟩ := expand_negate.mp h
    exact isPlain_negate (ih hq ha)
  | binary op left right ihl ihr =>
    obtain ⟨p', q, hp', hq, hcombine⟩ := linearIn_binary.mp hp
    cases op with
    | add =>
      obtain ⟨a, b, ha, hb, rfl⟩ := expand_add.mp h
      exact List.forall_mem_append.mpr ⟨ihl hp' ha, ihr hq hb⟩
    | sub =>
      obtain ⟨a, b, ha, hb, rfl⟩ := expand_sub.mp h
      exact List.forall_mem_append.mpr ⟨ihl hp' ha, isPlain_negate (ihr hq hb)⟩
    | mul =>
      obtain ⟨a, b, c, ha, hb, hc, rfl⟩ := expand_mul.mp h
      exact isPlain_products hc (ihl hp' ha) (ihr hq hb)
    | div =>
      obtain ⟨d, r, a, c, hd, hr, ha, hc, rfl⟩ := expand_div.mp h
      obtain ⟨-, -, -, rfl⟩ := reciprocal_eq_ok.mp hr
      refine isPlain_products hc (ihl hp' ha) fun b hb => ?_
      rw [List.mem_singleton.mp hb]
      exact ⟨rfl, rfl⟩
    | pow =>
      -- A linear power is one of constants.
      obtain ⟨hconstant, -⟩ := Option.ite_none_right_eq_some.mp hcombine
      obtain ⟨hp, -⟩ := Bool.and_eq_true_iff.mp hconstant
      obtain ⟨n, -, ⟨b, -, rfl⟩ | ⟨hnone, -⟩⟩ := expand_pow.mp h
      · exact isPlain_nonzero_singleton ⟨rfl, rfl⟩
      · rw [constantValue_eq_some.mpr ⟨p', hp', hp, rfl⟩] at hnone
        cases hnone
  | call f arg ih =>
    obtain ⟨q, hq, hcall⟩ := linearIn_call.mp hp
    obtain ⟨hconstant, -, -⟩ := call?_eq_some.mp hcall
    obtain ⟨q', a, hq', ha, rfl⟩ := expand_call.mp h
    obtain rfl := Option.some.inj (hq.symm.trans hq')
    by_cases hf : f = .exp
    · subst hf
      obtain rfl := expandCall_exp.mp ha
      exact isPlain_nonzero_singleton ⟨rfl, rfl⟩
    · obtain ⟨-, rfl⟩ := (expandCall_of_isConstant hconstant hf).mp ha
      exact isPlain_nonzero_singleton ⟨rfl, rfl⟩
  | unknown command => cases hp

/-! Division by what has a linear reading. -/

/-- A single term divides, as it is plain and not zero. -/
theorem exists_reciprocal [Arithmetic.KeepsNonzero α] {d : Monomial α}
    (hp : e.linearIn timeName = some p) (hd : e.expand = .ok [d]) : ∃ r, d.reciprocal = .ok r := by
  have hplain := isPlain_of_linearIn hp hd d (List.mem_singleton_self d)
  have hnonzero := nonzero_eq_self.mp (nonzero_of_expand hd) d (List.mem_singleton_self d)
  exact hplain.exists_reciprocal hnonzero

theorem exists_expand_div [Arithmetic.KeepsNonzero α] (hp : right.linearIn timeName = some p)
    (hd : ∃ d, right.expand = .ok [d]) (h : left.expand = .ok ts) :
    ∃ us, (binary .div left right).expand = .ok us := by
  obtain ⟨d, hd⟩ := hd
  obtain ⟨r, hr⟩ := exists_reciprocal hp hd
  have hosc : r.oscillation = none := by
    obtain ⟨-, -, -, rfl⟩ := reciprocal_eq_ok.mp hr
    rfl
  obtain ⟨c, hc⟩ := exists_products ts (List.forall_mem_singleton.mpr hosc)
  exact ⟨_, expand_div.mpr ⟨d, r, ts, c, hd, hr, h, hc, rfl⟩⟩

theorem expand_div_of_sum (h : (∃ ts, right.expand = .ok ts) ∨ right.expand = .error .sumDivisor)
    (hd : ¬∃ d, right.expand = .ok [d]) : (binary .div left right).expand = .error .sumDivisor := by
  rw [expand_div_eq]
  rcases h with ⟨_ | ⟨d, _ | ⟨d', ts⟩⟩, h⟩ | h
  · rw [h]
    rfl
  · exact absurd ⟨d, h⟩ hd
  · rw [h]
    rfl
  · rw [h]
    rfl

/-- As long as it divides by single terms, a linear reading can be expanded. -/
theorem exists_expand_of_linearIn [Arithmetic.KeepsNonzero α] (hp : e.linearIn timeName = some p)
    (hd : e.DividesByTerms) : ∃ ts, e.expand = .ok ts := by
  induction e generalizing p with
  | number x => exact ⟨_, expand_number⟩
  | symbol name => exact ⟨_, expand_symbol⟩
  | negate e ih =>
    obtain ⟨q, hq, -⟩ := linearIn_negate.mp hp
    obtain ⟨a, ha⟩ := ih hq hd
    exact ⟨_, expand_negate.mpr ⟨a, ha, rfl⟩⟩
  | binary op left right ihl ihr =>
    obtain ⟨p', q, hp', hq, hcombine⟩ := linearIn_binary.mp hp
    cases op with
    | add =>
      obtain ⟨a, ha⟩ := ihl hp' hd.1
      obtain ⟨b, hb⟩ := ihr hq hd.2
      exact ⟨_, expand_add.mpr ⟨a, b, ha, hb, rfl⟩⟩
    | sub =>
      obtain ⟨a, ha⟩ := ihl hp' hd.1
      obtain ⟨b, hb⟩ := ihr hq hd.2
      exact ⟨_, expand_sub.mpr ⟨a, b, ha, hb, rfl⟩⟩
    | mul =>
      obtain ⟨a, ha⟩ := ihl hp' hd.1
      obtain ⟨b, hb⟩ := ihr hq hd.2
      obtain ⟨c, hc⟩ := exists_products a fun m hm => (isPlain_of_linearIn hq hb m hm).1
      exact ⟨_, expand_mul.mpr ⟨a, b, c, ha, hb, hc, rfl⟩⟩
    | div =>
      obtain ⟨a, ha⟩ := ihl hp' hd.1
      exact exists_expand_div hq hd.2 ha
    | pow =>
      obtain ⟨hconstant, -⟩ := Option.ite_none_right_eq_some.mp hcombine
      obtain ⟨hp, hn⟩ := Bool.and_eq_true_iff.mp hconstant
      exact ⟨_, expand_pow.mpr ⟨q.intercept, constantValue_eq_some.mpr ⟨q, hq, hn, rfl⟩,
        Or.inl ⟨p'.intercept, constantValue_eq_some.mpr ⟨p', hp', hp, rfl⟩, rfl⟩⟩⟩
  | call f arg ih =>
    obtain ⟨q, hq, hcall⟩ := linearIn_call.mp hp
    obtain ⟨hconstant, hfinite, -⟩ := call?_eq_some.mp hcall
    by_cases hf : f = .exp
    · subst hf
      exact ⟨_, expand_call.mpr ⟨q, _, hq, expandCall_exp.mpr rfl, rfl⟩⟩
    · have hcall := (expandCall_of_isConstant hconstant hf).mpr ⟨Or.inr (Or.inr hfinite), rfl⟩
      exact ⟨_, expand_call.mpr ⟨q, _, hq, hcall, rfl⟩⟩
  | unknown command => cases hp

/-- A linear reading that divides by a sum somewhere is refused, and for that reason only. -/
theorem expand_of_not_dividesByTerms [Arithmetic.KeepsNonzero α]
    (hp : e.linearIn timeName = some p) (hd : ¬e.DividesByTerms) :
    e.expand = .error .sumDivisor := by
  induction e generalizing p with
  | negate e ih =>
    obtain ⟨q, hq, -⟩ := linearIn_negate.mp hp
    rw [expand_negate_eq, ih hq hd]
    rfl
  | binary op left right ihl ihr =>
    obtain ⟨p', q, hp', hq, -⟩ := linearIn_binary.mp hp
    -- The operand that is refused first, with the one before it expanded.
    have hfirst (hd : ¬(left.DividesByTerms ∧ right.DividesByTerms)) :
        left.expand = .error .sumDivisor ∨
          ∃ a, left.expand = .ok a ∧ right.expand = .error .sumDivisor := by
      by_cases hl : left.DividesByTerms
      · obtain ⟨a, ha⟩ := exists_expand_of_linearIn hp' hl
        exact Or.inr ⟨a, ha, ihr hq fun hr => hd ⟨hl, hr⟩⟩
      · exact Or.inl (ihl hp' hl)
    cases op with
    | add => exact Except.bind_bind_eq_error (hfirst hd)
    | sub => exact Except.bind_bind_eq_error (hfirst hd)
    | mul => exact Except.bind_bind_eq_error (hfirst hd)
    | div =>
      by_cases hterm : ∃ d, right.expand = .ok [d]
      · have hl := ihl hp' fun hl => hd ⟨hl, hterm⟩
        obtain ⟨d, hterm⟩ := hterm
        obtain ⟨r, hr⟩ := exists_reciprocal hq hterm
        rw [expand_div_eq, hterm, Except.ok_bind, divided, hr, Except.ok_bind, hl]
        rfl
      · by_cases hr : right.DividesByTerms
        · exact expand_div_of_sum (Or.inl (exists_expand_of_linearIn hq hr)) hterm
        · exact expand_div_of_sum (Or.inr (ihr hq hr)) hterm
    | pow => exact absurd trivial hd
  | number x => exact absurd trivial hd
  | symbol name => exact absurd trivial hd
  | call f arg => exact absurd trivial hd
  | unknown command => cases hp

/-- The two readers agree wherever nothing is divided by a sum: terms that denote the linear reading at
every time. Otherwise the expansion is refused for this reason; so is the division of anything by a
linear reading, unless that expands to a single term. -/
theorem expand_of_linearIn {e : Expr Exact} {p : Linear Exact} (hp : e.linearIn timeName = some p) :
    (e.DividesByTerms → ∃ ts, e.expand = .ok ts ∧
      ∀ a b t : ℝ, p = ⟨real a, real b⟩ → sumValue ts (real t) = real (a * t + b)) ∧
    (¬e.DividesByTerms → e.expand = .error .sumDivisor) ∧
    ∀ x xs, x.expand = .ok xs →
      ((∃ d, e.expand = .ok [d]) → ∃ ts, (binary .div x e).expand = .ok ts) ∧
      ((¬∃ d, e.expand = .ok [d]) → (binary .div x e).expand = .error .sumDivisor) := by
  refine ⟨fun hd => ?_, expand_of_not_dividesByTerms hp, fun x xs hx => ⟨fun hd => ?_, ?_⟩⟩
  · obtain ⟨ts, hts⟩ := exists_expand_of_linearIn hp hd
    refine ⟨ts, hts, ?_⟩
    rintro a b t rfl
    have hsymbols : HasUnitSymbols (fun _ => real 1) ts := fun _ _ _ _ => rfl
    exact expand_sumValue hts hsymbols (value_of_linearIn hp t)
  · exact exists_expand_div hp hd hx
  · apply expand_div_of_sum
    by_cases hd : e.DividesByTerms
    · exact Or.inl (exists_expand_of_linearIn hp hd)
    · exact Or.inr (expand_of_not_dividesByTerms hp hd)

/-- The expression `1 + 1`. -/
def onePlusOne : Expr Exact := .binary .add (.number (real 1)) (.number (real 1))

theorem linearIn_onePlusOne : onePlusOne.linearIn timeName = some ⟨real 0, real 2⟩ := by
  change some (⟨0 + 0, real 1 + real 1⟩ : Linear Exact) = _
  rw [zero_eq, real_add, real_add]
  norm_num

theorem expand_onePlusOne : onePlusOne.expand = .ok [.constant (real 1), .constant (real 1)] := by
  have hone : (number (real 1)).expand = .ok [.constant (real 1)] := by
    rw [expand_number, nonzero_eq_self.mpr]
    intro m hm
    rw [List.mem_singleton.mp hm, bne_zero_iff]
    simp [Monomial.constant]
  exact expand_add.mpr ⟨_, _, hone, hone, rfl⟩

theorem expand_of_linearIn_onePlusOne :
    onePlusOne.linearIn timeName = some ⟨real 0, real 2⟩ ∧ onePlusOne.DividesByTerms ∧
      (∃ ts, onePlusOne.expand = .ok ts ∧ sumValue ts (real 3) = real (0 * 3 + 2)) ∧
      (binary .div (symbol timeName) onePlusOne).expand = .error .sumDivisor := by
  obtain ⟨hexpand, -, hdiv⟩ := expand_of_linearIn linearIn_onePlusOne
  have hd : onePlusOne.DividesByTerms := ⟨trivial, trivial⟩
  obtain ⟨ts, hts, hvalue⟩ := hexpand hd
  refine ⟨linearIn_onePlusOne, hd, ⟨ts, hts, hvalue 0 2 3 rfl⟩, (hdiv _ _ expand_time).2 ?_⟩
  rintro ⟨d, hd⟩
  rw [expand_onePlusOne] at hd
  cases hd

/-- `t / (1 + 1)` has a linear reading, and its divisor a constant value other than zero; yet it is not
expanded. -/
theorem halvedTime_not_expanded :
    (binary .div (symbol timeName) onePlusOne).linearIn timeName = some ⟨real (1 / 2), real 0⟩ ∧
      onePlusOne.constantValue = some (real 2) ∧
      ¬∃ ts, (binary .div (symbol timeName) onePlusOne).expand = .ok ts := by
  have hconstant : Linear.isConstant ⟨real 0, real 2⟩ = true := Linear.isConstant_real.mpr rfl
  refine ⟨?_, ?_, ?_⟩
  · refine linearIn_binary.mpr ⟨⟨1, 0⟩, _, if_pos rfl, linearIn_onePlusOne, ?_⟩
    have hdivides : (Linear.isConstant ⟨real 0, real 2⟩ && real 2 != 0) = true := by
      rw [hconstant, Bool.true_and, bne_zero_iff]
      simp
    rw [Linear.combine?, if_pos hdivides, zero_eq, one_eq, real_div two_ne_zero,
      real_div two_ne_zero, zero_div]
  · exact constantValue_eq_some.mpr ⟨_, linearIn_onePlusOne, hconstant, rfl⟩
  · rintro ⟨ts, hts⟩
    obtain ⟨d, -, -, -, hd, -⟩ := expand_div.mp hts
    rw [expand_onePlusOne] at hd
    cases hd

end Expr

end Oscillator
