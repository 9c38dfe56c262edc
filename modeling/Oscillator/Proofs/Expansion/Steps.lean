import Mathlib.Data.List.Basic
import Oscillator.Expr.Expansion

/-! # The steps of an expansion

What an expansion can be, said once for each kind of expression. Products of sums are the lists in
which no product fails, so that stopping at the first failure and collecting all failures are two
readings of one list.
-/
namespace Oscillator

variable {α : Type} [Arithmetic α]

theorem Except.ok_bind {ε β γ : Type} (b : β) (f : β → Except ε γ) : (Except.ok b >>= f) = f b := rfl

theorem Except.bind_eq_ok {ε β γ : Type} {x : Except ε β} {f : β → Except ε γ} {c : γ} :
    (x >>= f) = .ok c ↔ ∃ b, x = .ok b ∧ f b = .ok c := by
  cases x <;> simp [bind, Except.bind]

theorem Except.map_eq_ok {ε β γ : Type} {x : Except ε β} {f : β → γ} {c : γ} :
    f <$> x = .ok c ↔ ∃ b, x = .ok b ∧ f b = c := by
  cases x <;> simp [Functor.map, Except.map]

theorem Except.mapM_id_eq_ok {ε β : Type} {xs : List (Except ε β)} {ys : List β} :
    xs.mapM id = .ok ys ↔ xs = ys.map .ok := by
  induction xs generalizing ys with
  | nil => cases ys <;> simp [pure, Except.pure]
  | cons x xs ih =>
    simp only [List.mapM_cons, Except.bind_eq_ok, id]
    cases ys with
    | nil => simp [pure, Except.pure]
    | cons y ys =>
      simp only [List.map_cons, List.cons.injEq, pure, Except.pure, Except.ok.injEq]
      constructor
      · rintro ⟨_, hx, _, hxs, rfl, rfl⟩
        exact ⟨hx, ih.mp hxs⟩
      · rintro ⟨hx, hxs⟩
        exact ⟨y, hx, ys, ih.mpr hxs, rfl, rfl⟩

namespace Monomial

theorem mulSums_eq_ok {left right ts : List (Monomial α)} :
    mulSums left right = .ok ts ↔ products left right = ts.map .ok := Except.mapM_id_eq_ok

theorem powSum_succ_eq_ok {base ts : List (Monomial α)} {n : Nat} :
    powSum base (n + 1) = .ok ts ↔ ∃ a, powSum base n = .ok a ∧ products a base = ts.map .ok := by
  simp only [powSum, Except.bind_eq_ok, mulSums_eq_ok]

/-- A product is made of two factors, the left one first. -/
theorem exists_factors {left right ts : List (Monomial α)} (h : products left right = ts.map .ok)
    {m : Monomial α} (hm : m ∈ ts) : ∃ a ∈ left, ∃ b ∈ right, a.mul b = .ok m := by
  have hmem : (.ok m : Except (Rejection α) (Monomial α)) ∈ products left right := by
    rw [h]
    exact List.mem_map_of_mem hm
  obtain ⟨a, ha, hb⟩ := List.mem_flatMap.mp hmem
  obtain ⟨b, hb, hab⟩ := List.mem_map.mp hb
  exact ⟨a, ha, b, hb, hab⟩

theorem mem_of_factors {left right ts : List (Monomial α)} (h : products left right = ts.map .ok)
    {a b : Monomial α} (ha : a ∈ left) (hb : b ∈ right) : ∃ m ∈ ts, a.mul b = .ok m := by
  have hmem : a.mul b ∈ products left right :=
    List.mem_flatMap.mpr ⟨a, ha, List.mem_map_of_mem hb⟩
  rw [h] at hmem
  obtain ⟨m, hm, hab⟩ := List.mem_map.mp hmem
  exact ⟨m, hm, hab.symm⟩

theorem mul_eq_ok {a b m : Monomial α} : a.mul b = .ok m ↔
    (a.oscillation = none ∨ b.oscillation = none) ∧
      m = ⟨a.coefficient * b.coefficient, a.rate + b.rate,
        Arithmetic.storePower α (a.timePower + b.timePower), a.oscillation <|> b.oscillation,
        a.symbols.union b.symbols⟩ := by
  cases ha : a.oscillation <;> cases hb : b.oscillation <;> simp [mul, ha, hb, eq_comm]

theorem reciprocal_eq_ok {m r : Monomial α} : m.reciprocal = .ok r ↔
    m.oscillation = none ∧ m.symbols = [] ∧ (m.coefficient == 0) = false ∧
      r = ⟨1 / m.coefficient, -m.rate, Arithmetic.storePower α (-m.timePower), none, []⟩ := by
  unfold reciprocal
  cases ho : m.oscillation <;> cases hs : m.symbols <;> cases hc : m.coefficient == 0 <;> simp [eq_comm]

end Monomial

namespace Expr

variable {e left right base exponent arg : Expr α} {f : Func} {ts : List (Monomial α)}
  {v : String} {p : Linear α}

open Monomial

theorem linearIn_symbol {name : String} : (symbol (α := α) name).linearIn v =
    if name = v then some ⟨1, 0⟩
    else if name = eulerName then some (.constant Arithmetic.euler) else none := rfl

theorem linearIn_negate : (negate e).linearIn v = some p ↔
    ∃ q, e.linearIn v = some q ∧ q.negate = p := Option.map_eq_some_iff

theorem linearIn_binary {op : Op} : (binary op left right).linearIn v = some p ↔
    ∃ q r, left.linearIn v = some q ∧ right.linearIn v = some r ∧
      Linear.combine? op q r = some p := by
  change ((left.linearIn v).bind fun q => (right.linearIn v).bind fun r => _) = _ ↔ _
  simp only [Option.bind_eq_some_iff, ← exists_and_left]

theorem linearIn_call : (call f arg).linearIn v = some p ↔
    ∃ q, arg.linearIn v = some q ∧ Linear.call? f q = some p := Option.bind_eq_some_iff

theorem call?_eq_some {q : Linear α} : Linear.call? f q = some p ↔
    q.isConstant = true ∧ Arithmetic.isFinite (f.apply q.intercept) = true ∧
      .constant (f.apply q.intercept) = p := by
  cases hq : q.isConstant <;> simp [Linear.call?, hq]

theorem constantValue_eq_some {c : α} : e.constantValue = some c ↔
    ∃ p, e.linearIn timeName = some p ∧ p.isConstant = true ∧ p.intercept = c := by
  rw [constantValue, Option.bind_eq_some_iff]
  simp

theorem expand_number {x : α} : (number x).expand = .ok (nonzero [.constant x]) := rfl

theorem expand_symbol {name : String} : (symbol (α := α) name).expand =
    .ok (nonzero [if name = timeName then .time
      else if name = eulerName then .constant Arithmetic.euler else .symbol name]) := by
  change (if name = timeName then Except.ok (nonzero [time])
    else if name = eulerName then .ok (nonzero [constant (Arithmetic.euler : α)])
    else .ok (nonzero [Monomial.symbol name])) = _
  by_cases ht : name = timeName
  · rw [if_pos ht, if_pos ht]
  · rw [if_neg ht, if_neg ht]
    by_cases he : name = eulerName
    · rw [if_pos he, if_pos he]
    · rw [if_neg he, if_neg he]

/-! What an expansion does first, for each operation. -/

theorem expand_negate_eq : (negate e).expand = e.expand >>= fun a => .ok (a.map .negate) := rfl

theorem expand_add_eq : (binary .add left right).expand =
    left.expand >>= fun a => right.expand >>= fun b => .ok (a ++ b) := rfl

theorem expand_sub_eq : (binary .sub left right).expand =
    left.expand >>= fun a => right.expand >>= fun b => .ok (a ++ b.map .negate) := rfl

theorem expand_mul_eq : (binary .mul left right).expand = left.expand >>= fun a =>
    right.expand >>= fun b => mulSums a b >>= fun c => .ok (nonzero c) := rfl

/-- A quotient by the terms of a divisor, which is inverted before the dividend is expanded. -/
def divided (dividend : Except (Rejection α) (List (Monomial α))) :
    List (Monomial α) → Except (Rejection α) (List (Monomial α))
  | [d] => d.reciprocal >>= fun r => dividend >>= fun a => mulSums a [r] >>= fun c => .ok (nonzero c)
  | _ => .error .sumDivisor

theorem expand_div_eq :
    (binary .div left right).expand = right.expand >>= divided left.expand := by
  change (right.expand >>= fun b => _) = _
  cases right.expand with
  | error reason => rfl
  | ok b => rcases b with _ | ⟨d, _ | ⟨d', ds⟩⟩ <;> rfl

theorem expand_negate : (negate e).expand = .ok ts ↔
    ∃ a, e.expand = .ok a ∧ a.map .negate = ts := by
  rw [expand_negate_eq]
  simp only [Except.bind_eq_ok, Except.ok.injEq]

theorem expand_add : (binary .add left right).expand = .ok ts ↔
    ∃ a b, left.expand = .ok a ∧ right.expand = .ok b ∧ a ++ b = ts := by
  rw [expand_add_eq]
  simp only [Except.bind_eq_ok, Except.ok.injEq, ← exists_and_left]

theorem expand_sub : (binary .sub left right).expand = .ok ts ↔
    ∃ a b, left.expand = .ok a ∧ right.expand = .ok b ∧ a ++ b.map .negate = ts := by
  rw [expand_sub_eq]
  simp only [Except.bind_eq_ok, Except.ok.injEq, ← exists_and_left]

theorem expand_mul : (binary .mul left right).expand = .ok ts ↔
    ∃ a b c, left.expand = .ok a ∧ right.expand = .ok b ∧ products a b = c.map .ok ∧
      nonzero c = ts := by
  rw [expand_mul_eq]
  simp only [Except.bind_eq_ok, Except.ok.injEq, mulSums_eq_ok, ← exists_and_left]

/-- Only a single term divides. -/
theorem expand_div : (binary .div left right).expand = .ok ts ↔
    ∃ d r a c, right.expand = .ok [d] ∧ d.reciprocal = .ok r ∧ left.expand = .ok a ∧
      products a [r] = c.map .ok ∧ nonzero c = ts := by
  rw [expand_div_eq, Except.bind_eq_ok]
  constructor
  · rintro ⟨b, hb, h⟩
    rcases b with _ | ⟨d, _ | ⟨d', ds⟩⟩
    · cases h
    · simp only [divided, Except.bind_eq_ok, mulSums_eq_ok, Except.ok.injEq] at h
      obtain ⟨r, hr, a, ha, c, hc, hts⟩ := h
      exact ⟨d, r, a, c, hb, hr, ha, hc, hts⟩
    · cases h
  · rintro ⟨d, r, a, c, hb, hr, ha, hc, hts⟩
    refine ⟨[d], hb, ?_⟩
    simp only [divided, Except.bind_eq_ok, mulSums_eq_ok, Except.ok.injEq]
    exact ⟨r, hr, a, ha, c, hc, hts⟩

/-- A power of constants is a constant; other powers are small whole ones and multiplied out. -/
theorem expand_pow : (binary .pow base exponent).expand = .ok ts ↔
    ∃ n, exponent.constantValue = some n ∧
      ((∃ b, base.constantValue = some b ∧ nonzero [.constant (Arithmetic.pow b n)] = ts) ∨
        (base.constantValue = none ∧
          ¬n < 0 ∧ Arithmetic.isWhole n = true ∧ ¬(maxPower : α) < n ∧
          ∃ a c, base.expand = .ok a ∧ powSum a (Arithmetic.toCount n) = .ok c ∧
            nonzero c = ts)) := by
  rw [expand]
  cases hn : exponent.constantValue with
  | none => simp
  | some n =>
    cases hb : base.constantValue with
    | some b => simp
    | none =>
      by_cases hneg : n < 0 <;> by_cases hlarge : (maxPower : α) < n <;>
        cases hwhole : Arithmetic.isWhole n <;>
        simp [hneg, hlarge, hwhole, Except.bind_eq_ok, Except.map_eq_ok]

theorem expand_pow_eq : (binary .pow base exponent).expand =
    exponent.constantValue.elim (.error .varyingExponent) fun n =>
      base.constantValue.elim
        (if n < 0 || !Arithmetic.isWhole n || (maxPower : α) < n then .error (.unsupportedPower n)
        else base.expand >>= fun a => powSum a (Arithmetic.toCount n) >>= fun c =>
          .ok (nonzero c))
        fun b => .ok (nonzero [.constant (Arithmetic.pow b n)]) := by
  rw [expand]
  cases exponent.constantValue with
  | none => rfl
  | some n =>
    cases base.constantValue with
    | none =>
      dsimp
      split <;> rfl
    | some b => rfl

theorem expand_pow_supported {n : α} (hn : exponent.constantValue = some n)
    (hb : base.constantValue = none)
    (hguard : ¬(n < 0 || !Arithmetic.isWhole n || (maxPower : α) < n) = true) :
    (binary .pow base exponent).expand = base.expand >>= fun ts =>
      powSum ts (Arithmetic.toCount n) >>= fun us => .ok (nonzero us) := by
  rw [expand_pow_eq, hn, hb]
  exact if_neg hguard

theorem expand_pow_unsupported {n : α} (hn : exponent.constantValue = some n)
    (hb : base.constantValue = none)
    (hguard : (n < 0 || !Arithmetic.isWhole n || (maxPower : α) < n) = true) :
    (binary .pow base exponent).expand = .error (.unsupportedPower n) := by
  rw [expand_pow_eq, hn, hb]
  exact if_pos hguard

theorem expand_call : (call f arg).expand = .ok ts ↔
    ∃ p a, arg.linearIn timeName = some p ∧ expandCall f p = .ok a ∧ nonzero a = ts := by
  rw [expand]
  cases hp : arg.linearIn timeName with
  | none => simp
  | some p => simp [Except.map_eq_ok]

theorem expand_call_eq : (call f arg).expand =
    (arg.linearIn timeName).elim (.error (.nonlinearArgument f)) fun p =>
      expandCall f p >>= fun a => .ok (nonzero a) := by
  rw [expand]
  cases arg.linearIn timeName <;> rfl

theorem expandCall_exp : expandCall .exp p = .ok ts ↔
    [.exponential (Arithmetic.exp p.intercept) p.slope] = ts := by
  change Except.ok _ = _ ↔ _
  rw [Except.ok.injEq]

/-- Waves of a constant are taken as they come, other functions of it only if they are finite. -/
theorem expandCall_of_isConstant (hp : p.isConstant = true) (hf : f ≠ .exp) :
    expandCall f p = .ok ts ↔
      (f = .sin ∨ f = .cos ∨ Arithmetic.isFinite (f.apply p.intercept) = true) ∧
        [.constant (f.apply p.intercept)] = ts := by
  cases f with
  | exp => exact absurd rfl hf
  | sin => simp [expandCall, hp, Func.apply]
  | cos => simp [expandCall, hp, Func.apply]
  | tan =>
    cases hfinite : Arithmetic.isFinite (Func.tan.apply p.intercept) <;>
      simp [expandCall, hp, hfinite]
  | sqrt =>
    cases hfinite : Arithmetic.isFinite (Func.sqrt.apply p.intercept) <;>
      simp [expandCall, hp, hfinite]

theorem expandCall_of_varying (hp : p.isConstant = false) (hf : f ≠ .exp) :
    expandCall f p = .ok ts ↔
      (f = .sin ∧ [
        .oscillating (Arithmetic.sign p.slope * Arithmetic.cos p.intercept) .sine
          (Arithmetic.abs p.slope),
        .oscillating (Arithmetic.sin p.intercept) .cosine (Arithmetic.abs p.slope)] = ts) ∨
      (f = .cos ∧ [
        .oscillating (Arithmetic.cos p.intercept) .cosine (Arithmetic.abs p.slope),
        .oscillating (-Arithmetic.sign p.slope * Arithmetic.sin p.intercept) .sine
          (Arithmetic.abs p.slope)] = ts) := by
  cases f with
  | exp => exact absurd rfl hf
  | sin => simp [expandCall, hp]
  | cos => simp [expandCall, hp]
  | tan => simp [expandCall, hp]
  | sqrt => simp [expandCall, hp]

theorem expand_unknown {command : String} :
    (unknown (α := α) command).expand = .error (.unknownCommand command) := rfl

end Expr

end Oscillator
