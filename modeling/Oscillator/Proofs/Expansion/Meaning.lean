import Oscillator.Proofs.Expansion.Leniency
import Oscillator.Proofs.Expansion.Linear

/-! # Expansion keeps the value

Wherever an expression has a value, the sum that it expands to has the same one. A term names each of
its symbols once, however often they were multiplied in. This is right for symbols of value one, and
of no account for a sum that is left without symbols.
-/
namespace Oscillator

open Exact

variable {σ : String → Exact} {t x y : ℝ}

namespace Monomial

/-- The symbols of all terms have the value one. -/
def HasUnitSymbols (σ : String → Exact) (ts : List (Monomial Exact)) : Prop :=
  ∀ m ∈ ts, ∀ s ∈ m.symbols, σ s = real 1

variable {left right base ts : List (Monomial Exact)} {m : Monomial Exact}

theorem hasUnitSymbols_nil : HasUnitSymbols σ [] := by
  intro m hm
  cases hm

/-- A product takes the symbols of both factors over. -/
theorem HasUnitSymbols.of_mul {a b : Monomial Exact} (h : a.mul b = .ok m)
    (hm : ∀ s ∈ m.symbols, σ s = real 1) :
    (∀ s ∈ a.symbols, σ s = real 1) ∧ ∀ s ∈ b.symbols, σ s = real 1 := by
  obtain ⟨-, rfl⟩ := mul_eq_ok.mp h
  constructor
  · intro s hs
    exact hm s (Names.mem_union.mpr (Or.inl hs))
  · intro s hs
    exact hm s (Names.mem_union.mpr (Or.inr hs))

/-- Symbols of one factor can get lost only where the other one is an empty sum, and then there is
nothing to be multiplied. -/
theorem HasUnitSymbols.sumValue_products (hσ : HasUnitSymbols σ ts)
    (h : products left right = ts.map .ok)
    (hl : HasUnitSymbols σ left → sumValue left (real t) = real x)
    (hr : HasUnitSymbols σ right → sumValue right (real t) = real y) :
    sumValue ts (real t) = real (x * y) := by
  have hnil (hne : left = [] ∨ right = []) : ts = [] := by
    apply List.eq_nil_iff_forall_not_mem.mpr
    intro m hm
    obtain ⟨a, ha, b, hb, -⟩ := exists_factors h hm
    rcases hne with rfl | rfl
    · cases ha
    · cases hb
  cases left with
  | nil =>
    have hx := hl hasUnitSymbols_nil
    rw [sumValue_nil] at hx
    cases hx
    rw [hnil (Or.inl rfl), sumValue_nil, zero_mul]
  | cons a left =>
    cases right with
    | nil =>
      have hy := hr hasUnitSymbols_nil
      rw [sumValue_nil] at hy
      cases hy
      rw [hnil (Or.inr rfl), sumValue_nil, mul_zero]
    | cons b right =>
      refine Monomial.sumValue_products h (hl fun c hc => ?_) (hr fun c hc => ?_)
      · obtain ⟨m, hm, hcm⟩ := mem_of_factors h hc List.mem_cons_self
        exact (of_mul hcm (hσ m hm)).1
      · obtain ⟨m, hm, hcm⟩ := mem_of_factors h List.mem_cons_self hc
        exact (of_mul hcm (hσ m hm)).2

theorem HasUnitSymbols.sumValue_powSum {n : ℕ} (hσ : HasUnitSymbols σ ts)
    (h : powSum base n = .ok ts)
    (hb : HasUnitSymbols σ base → sumValue base (real t) = real x) :
    sumValue ts (real t) = real (x ^ n) := by
  induction n generalizing ts with
  | zero =>
    cases h
    rw [sumValue_singleton, value_constant, pow_zero, one_eq]
  | succ n ih =>
    obtain ⟨a, ha, hts⟩ := powSum_succ_eq_ok.mp h
    rw [pow_succ]
    exact hσ.sumValue_products hts (fun hσa => ih hσa ha) hb

theorem nonzero_powSum {n : ℕ} (h : powSum base n = .ok ts) (hb : nonzero base = base) :
    nonzero ts = ts := by
  induction n generalizing ts with
  | zero =>
    cases h
    rw [nonzero_eq_self]
    intro m hm
    rw [List.mem_singleton.mp hm, bne_zero_iff, constant, one_eq]
    simp
  | succ n ih =>
    obtain ⟨a, ha, hts⟩ := powSum_succ_eq_ok.mp h
    exact nonzero_products hts (ih ha) hb

theorem coefficient_ne_zero (h : m.value (real t) = real x) (hx : x ≠ 0) :
    (m.coefficient != 0) = true := by
  obtain ⟨c, r, w, hc, -, -, -, rfl⟩ := value_eq_real.mp h
  rw [bne_zero_iff, hc]
  rintro ⟨⟩
  simp at hx

end Monomial

/-- Whether an operation has a result: nothing is divided by zero, and powers are real. -/
def Op.IsDefinedOn : Op → Exact → Exact → Prop
  | div, _, y => y ≠ real 0
  | pow, real x, real y => power x y ≠ undefined
  | _, _, _ => True

namespace Expr

/-- All numbers are real, and every division and every power that is met at a time is defined. -/
def IsDefinedAt (σ : String → Exact) (t : Exact) : Expr Exact → Prop
  | number x => x ≠ undefined
  | symbol _ => True
  | negate e => e.IsDefinedAt σ t
  | binary op left right => left.IsDefinedAt σ t ∧ right.IsDefinedAt σ t ∧
      op.IsDefinedOn (left.value σ t) (right.value σ t)
  | call _ arg => arg.IsDefinedAt σ t
  | unknown _ => True

open Monomial

variable {e : Expr Exact} {ts : List (Monomial Exact)}

/-- An exponent that sums are raised to is a count. -/
theorem exists_count {n : ℝ} (hneg : ¬real n < 0) (hwhole : Arithmetic.isWhole (real n) = true)
    (hlarge : ¬(maxPower : Exact) < real n) : ∃ k : ℕ, n = k ∧ Arithmetic.toCount (real n) = k := by
  rw [zero_eq, real_lt, not_lt] at hneg
  rw [natCast_eq, real_lt, not_lt, maxPower] at hlarge
  rw [Arithmetic.isWhole, floor_real, real_sub, zero_eq, real_beq, decide_eq_true_eq,
    sub_eq_zero] at hwhole
  have hk : n = (⌊n⌋₊ : ℝ) := by
    rw [natCast_floor_eq_intCast_floor hneg]
    exact hwhole
  refine ⟨⌊n⌋₊, hk, min_eq_left ?_⟩
  rw [hk] at hlarge
  have : ⌊n⌋₊ ≤ 8 := by exact_mod_cast hlarge
  omega

theorem expand_sumValue (h : e.expand = .ok ts) (hσ : HasUnitSymbols σ ts)
    (hx : e.value σ (real t) = real x) : sumValue ts (real t) = real x := by
  -- The symbols of a sum tell about those of its parts, wherever these have a share in it.
  induction e generalizing ts x with
  | number c =>
    rw [expand_number] at h
    cases h
    exact sumValue_nonzero (sumValue_singleton.mpr ((value_constant c).trans hx))
  | symbol name =>
    rw [expand_symbol] at h
    cases h
    apply sumValue_nonzero
    rw [sumValue_singleton]
    rw [Expr.value_symbol] at hx
    by_cases ht : name = timeName
    · rw [if_pos ht] at hx ⊢
      rw [← hx, value_time]
    · rw [if_neg ht] at hx hσ ⊢
      by_cases he : name = eulerName
      · rw [if_pos he] at hx ⊢
        exact (value_constant _).trans hx
      · rw [if_neg he] at hx hσ ⊢
        have hmem : Monomial.symbol name ∈ nonzero [Monomial.symbol (α := Exact) name] :=
          mem_nonzero.mpr ⟨List.mem_singleton_self _, by simp [Monomial.symbol, bne]⟩
        have hone := hσ _ hmem name (List.mem_singleton_self name)
        rw [Monomial.value_symbol, ← hone, hx]
  | negate e ih =>
    obtain ⟨a, ha, rfl⟩ := expand_negate.mp h
    have hσa : HasUnitSymbols σ a := fun m hm => hσ m.negate (List.mem_map_of_mem hm)
    simpa using sumValue_negate (ih ha hσa (neg_eq_real.mp hx))
  | binary op left right ihl ihr =>
    obtain ⟨y, z, hy, hz, hop⟩ := value_binary_eq_real hx
    cases op with
    | add =>
      cases hop
      obtain ⟨a, b, ha, hb, rfl⟩ := expand_add.mp h
      have hσa : HasUnitSymbols σ a := fun m hm => hσ m (List.mem_append_left b hm)
      have hσb : HasUnitSymbols σ b := fun m hm => hσ m (List.mem_append_right a hm)
      exact sumValue_append (ihl ha hσa hy) (ihr hb hσb hz)
    | sub =>
      obtain rfl : y - z = x := Exact.real.inj hop
      obtain ⟨a, b, ha, hb, rfl⟩ := expand_sub.mp h
      have hσa : HasUnitSymbols σ a := fun m hm => hσ m (List.mem_append_left _ hm)
      have hσb : HasUnitSymbols σ b := fun m hm =>
        hσ m.negate (List.mem_append_right a (List.mem_map_of_mem hm))
      rw [sub_eq_add_neg]
      exact sumValue_append (ihl ha hσa hy) (sumValue_negate (ihr hb hσb hz))
    | mul =>
      cases hop
      obtain ⟨a, b, c, ha, hb, hc, rfl⟩ := expand_mul.mp h
      rw [nonzero_products hc (nonzero_of_expand ha) (nonzero_of_expand hb)] at hσ ⊢
      exact hσ.sumValue_products hc (fun hσa => ihl ha hσa hy) (fun hσb => ihr hb hσb hz)
    | div =>
      obtain ⟨_, _, hy', hz', hne, rfl⟩ := div_eq_real.mp hop
      cases hy'
      cases hz'
      obtain ⟨d, r, a, c, hd, hr, ha, hc, rfl⟩ := expand_div.mp h
      -- A divisor that can be turned round names no symbol.
      have hσd : HasUnitSymbols σ [d] := by
        intro m hm s hs
        rw [List.mem_singleton.mp hm, (reciprocal_eq_ok.mp hr).2.1] at hs
        cases hs
      have hdz := sumValue_singleton.mp (ihr hd hσd hz)
      have hrz := value_reciprocal hr hdz hne
      have hrn : nonzero [r] = [r] := by
        rw [nonzero_eq_self]
        intro m hm
        rw [List.mem_singleton.mp hm]
        exact coefficient_ne_zero hrz (inv_ne_zero hne)
      rw [nonzero_products hc (nonzero_of_expand ha) hrn] at hσ ⊢
      rw [div_eq_mul_inv]
      exact hσ.sumValue_products hc (fun hσa => ihl ha hσa hy) (fun _ => sumValue_singleton.mpr hrz)
    | pow =>
      obtain ⟨n, hn, ⟨b, hb, rfl⟩ | ⟨-, hneg, hwhole, hlarge, a, c, ha, hc, rfl⟩⟩ := expand_pow.mp h
      · rw [constantValue_value hn hz, constantValue_value hb hy]
        exact sumValue_nonzero (sumValue_singleton.mpr ((value_constant _).trans hop))
      · rw [constantValue_value hn hz] at hneg hwhole hlarge hc
        obtain ⟨k, rfl, hk⟩ := exists_count hneg hwhole hlarge
        rw [nonzero_powSum hc (nonzero_of_expand ha)] at hσ ⊢
        obtain ⟨-, rfl⟩ := power_eq_real.mp hop
        rw [hk] at hc
        rw [Real.rpow_natCast]
        exact hσ.sumValue_powSum hc fun hσa => ihl ha hσa hy
  | call f arg =>
    obtain ⟨y, hy, hf⟩ := value_call_eq_real hx
    obtain ⟨p, a, hp, ha, rfl⟩ := expand_call.mp h
    obtain ⟨b, c, rfl, rfl⟩ := linearIn_value hp hy
    exact sumValue_nonzero (expandCall_sumValue ha hf)
  | unknown command =>
    rw [expand_unknown] at h
    cases h

/-! Where an expansion or a linear reading succeeds, only divisions and powers can be without a
result: roots and tangents are taken of constants, and only if they are finite. -/

theorem exists_value_binary {op : Op} {left right : Expr Exact}
    (hl : ∃ y, left.value σ (real t) = real y) (hr : ∃ z, right.value σ (real t) = real z)
    (hop : op.IsDefinedOn (left.value σ (real t)) (right.value σ (real t))) :
    ∃ x, (binary op left right).value σ (real t) = real x := by
  obtain ⟨y, hy⟩ := hl
  obtain ⟨z, hz⟩ := hr
  rw [value_binary, hy, hz]
  rw [hy, hz] at hop
  cases op with
  | add => exact ⟨y + z, rfl⟩
  | sub => exact ⟨y - z, rfl⟩
  | mul => exact ⟨y * z, rfl⟩
  | div => exact ⟨y / z, real_div fun hz0 => hop (congrArg real hz0)⟩
  | pow =>
    rw [Op.apply, pow_real]
    cases hp : Exact.power y z with
    | real x => exact ⟨x, rfl⟩
    | undefined => exact absurd hp hop

theorem exists_value_of_linearIn {p : Linear Exact} (h : e.linearIn timeName = some p)
    (hd : e.IsDefinedAt σ (real t)) : ∃ x, e.value σ (real t) = real x := by
  induction e generalizing p with
  | number x =>
    cases x with
    | real x => exact ⟨x, rfl⟩
    | undefined => exact absurd rfl hd
  | symbol name =>
    rw [linearIn_symbol] at h
    rw [Expr.value_symbol]
    by_cases ht : name = timeName
    · exact ⟨t, if_pos ht⟩
    · rw [if_neg ht] at h ⊢
      by_cases he : name = eulerName
      · exact ⟨Real.exp 1, if_pos he⟩
      · rw [if_neg he] at h
        cases h
  | negate e ih =>
    obtain ⟨q, hq, -⟩ := linearIn_negate.mp h
    obtain ⟨x, hx⟩ := ih hq hd
    exact ⟨-x, neg_eq_real.mpr (by rw [neg_neg, hx])⟩
  | binary op left right ihl ihr =>
    obtain ⟨p', q, hp, hq, -⟩ := linearIn_binary.mp h
    exact exists_value_binary (ihl hp hd.1) (ihr hq hd.2.1) hd.2.2
  | call f arg ih =>
    obtain ⟨q, hq, hcall⟩ := linearIn_call.mp h
    obtain ⟨y, hy⟩ := ih hq hd
    obtain ⟨a, b, rfl, rfl⟩ := linearIn_value hq hy
    obtain ⟨ha, hfinite, -⟩ := call?_eq_some.mp hcall
    rw [value_call, hy, Linear.isConstant_real.mp ha, zero_mul, zero_add]
    exact isFinite_iff.mp hfinite
  | unknown command => cases h

theorem exists_value_of_constantValue {c : Exact} (h : e.constantValue = some c)
    (hd : e.IsDefinedAt σ (real t)) : ∃ x, e.value σ (real t) = real x := by
  obtain ⟨p, hp, -⟩ := constantValue_eq_some.mp h
  exact exists_value_of_linearIn hp hd

theorem exists_apply_of_expandCall {f : Func} {a b : ℝ} (h : expandCall f ⟨real a, real b⟩ = .ok ts) :
    ∃ x, f.apply (real (a * t + b)) = real x := by
  by_cases hf : f = .exp
  · subst hf
    exact ⟨_, rfl⟩
  by_cases ha : a = 0
  · obtain ⟨hkind, -⟩ := (expandCall_of_isConstant (Linear.isConstant_real.mpr ha) hf).mp h
    rw [ha, zero_mul, zero_add]
    rcases hkind with rfl | rfl | hfinite
    · exact ⟨_, rfl⟩
    · exact ⟨_, rfl⟩
    · exact isFinite_iff.mp hfinite
  · have hc : Linear.isConstant ⟨real a, real b⟩ = false :=
      Bool.eq_false_iff.mpr (mt Linear.isConstant_real.mp ha)
    rcases (expandCall_of_varying hc hf).mp h with ⟨rfl, -⟩ | ⟨rfl, -⟩
    · exact ⟨_, rfl⟩
    · exact ⟨_, rfl⟩

theorem exists_value_of_expand (hσ : ∀ name, ∃ x, σ name = real x) (h : e.expand = .ok ts)
    (hd : e.IsDefinedAt σ (real t)) : ∃ x, e.value σ (real t) = real x := by
  induction e generalizing ts with
  | number x =>
    cases x with
    | real x => exact ⟨x, rfl⟩
    | undefined => exact absurd rfl hd
  | symbol name =>
    rw [Expr.value_symbol]
    by_cases ht : name = timeName
    · exact ⟨t, if_pos ht⟩
    · rw [if_neg ht]
      by_cases he : name = eulerName
      · exact ⟨Real.exp 1, if_pos he⟩
      · rw [if_neg he]
        exact hσ name
  | negate e ih =>
    obtain ⟨a, ha, -⟩ := expand_negate.mp h
    obtain ⟨x, hx⟩ := ih ha hd
    exact ⟨-x, neg_eq_real.mpr (by rw [neg_neg, hx])⟩
  | binary op left right ihl ihr =>
    obtain ⟨hdl, hdr, hop⟩ := hd
    have hoperands : (∃ y, left.value σ (real t) = real y) ∧
        ∃ z, right.value σ (real t) = real z := by
      cases op with
      | add =>
        obtain ⟨a, b, ha, hb, -⟩ := expand_add.mp h
        exact ⟨ihl ha hdl, ihr hb hdr⟩
      | sub =>
        obtain ⟨a, b, ha, hb, -⟩ := expand_sub.mp h
        exact ⟨ihl ha hdl, ihr hb hdr⟩
      | mul =>
        obtain ⟨a, b, c, ha, hb, -⟩ := expand_mul.mp h
        exact ⟨ihl ha hdl, ihr hb hdr⟩
      | div =>
        obtain ⟨d, r, a, c, hd, -, ha, -⟩ := expand_div.mp h
        exact ⟨ihl ha hdl, ihr hd hdr⟩
      | pow =>
        obtain ⟨n, hn, ⟨b, hb, -⟩ | ⟨-, -, -, -, a, c, ha, -⟩⟩ := expand_pow.mp h
        · exact ⟨exists_value_of_constantValue hb hdl, exists_value_of_constantValue hn hdr⟩
        · exact ⟨ihl ha hdl, exists_value_of_constantValue hn hdr⟩
    exact exists_value_binary hoperands.1 hoperands.2 hop
  | call f arg =>
    obtain ⟨p, a, hp, ha, -⟩ := expand_call.mp h
    obtain ⟨y, hy⟩ := exists_value_of_linearIn hp hd
    obtain ⟨b, c, rfl, rfl⟩ := linearIn_value hp hy
    rw [value_call, hy]
    exact exists_apply_of_expandCall ha
  | unknown command =>
    rw [expand_unknown] at h
    cases h

/-- The expression `cos (t) t / t`, whose powers of time cancel. -/
def cancelling : Expr Exact :=
  .binary .div (.binary .mul (.call .cos (.symbol timeName)) (.symbol timeName)) (.symbol timeName)

theorem expand_time : (symbol timeName : Expr Exact).expand = .ok [.time] := by
  rw [expand_symbol, if_pos rfl]
  simp [nonzero, Monomial.time, bne]

theorem expand_cos_time : (call .cos (symbol timeName) : Expr Exact).expand =
    .ok [.oscillating (real 1) .cosine (real 1)] := by
  refine expand_call.mpr ⟨⟨1, 0⟩, [.oscillating (real (Real.cos 0)) .cosine (real |1|),
    .oscillating (real (-1 * Real.sin 0)) .sine (real |1|)], if_pos rfl, ?_, ?_⟩
  · simp [expandCall, Linear.isConstant, sign_real]
  · simp [nonzero, Monomial.oscillating, bne]

/-- Symbolically the powers of time cancel, and a cosine is left. -/
theorem expand_cancelling : cancelling.expand = .ok [.oscillating (real 1) .cosine (real 1)] := by
  have hwave (n : ℤ) : nonzero [(⟨real 1, 0, n, some ⟨.cosine, real 1⟩, []⟩ : Monomial Exact)] =
      [⟨real 1, 0, n, some ⟨.cosine, real 1⟩, []⟩] := by simp [nonzero, bne]
  have hmul : (binary .mul (call .cos (symbol timeName)) (symbol timeName) : Expr Exact).expand =
      .ok [⟨real 1, 0, 1, some ⟨.cosine, real 1⟩, []⟩] := by
    refine expand_mul.mpr ⟨_, _, [⟨real 1, 0, 1, some ⟨.cosine, real 1⟩, []⟩],
      expand_cos_time, expand_time, ?_, hwave 1⟩
    simp [products, mul_eq_ok, Monomial.oscillating, Monomial.time, Names.union]
    rfl
  have hreciprocal : Monomial.time.reciprocal = .ok ⟨real 1, 0, -1, none, []⟩ := by
    simp [reciprocal_eq_ok, Monomial.time, real_div one_ne_zero]
    rfl
  refine expand_div.mpr ⟨.time, ⟨real 1, 0, -1, none, []⟩, _,
    [⟨real 1, 0, 0, some ⟨.cosine, real 1⟩, []⟩], expand_time, hreciprocal, hmul, ?_, hwave 0⟩
  simp [products, mul_eq_ok, Names.union]
  rfl

/-- At every time at which the divisions and powers in an expression are defined, it has a value, and
the sum that it expands to has the same one; symbols have the value one. -/
theorem expand_keeps_value (h : e.expand = .ok ts) (hd : e.IsDefinedAt (fun _ => real 1) (real t)) :
    ∃ x : ℝ, e.value (fun _ => real 1) (real t) = real x ∧ sumValue ts (real t) = real x := by
  obtain ⟨x, hx⟩ := exists_value_of_expand (fun _ => ⟨1, rfl⟩) h hd
  exact ⟨x, hx, expand_sumValue h (fun _ _ _ _ => rfl) hx⟩

theorem expand_keeps_value_cancelling :
    cancelling.expand = .ok [.oscillating (real 1) .cosine (real 1)] ∧
      cancelling.IsDefinedAt (fun _ => real 1) (real 2) ∧
      ∃ x : ℝ, cancelling.value (fun _ => real 1) (real 2) = real x ∧
        sumValue [.oscillating (real 1) .cosine (real 1)] (real 2) = real x := by
  have hd : cancelling.IsDefinedAt (fun _ => real 1) (real 2) := by
    simp [cancelling, IsDefinedAt, Op.IsDefinedOn, value]
  exact ⟨expand_cancelling, hd, expand_keeps_value expand_cancelling hd⟩

end Expr

end Oscillator
