import Oscillator.Proofs.Expansion.Negation
import Oscillator.Proofs.Expansion.Terms

/-! # Exponents in words

An arithmetic may store exponents of time in words. As in every arithmetic of remainders, it does not matter
whether they are reduced to words at each step or in the end: an expression expands to the terms that it
expands to with every exponent stored as it is, each of them reduced.
-/
namespace Oscillator

/-- The same arithmetic with every exponent of time stored as it is. -/
@[reducible] def Arithmetic.unbounded (α : Type) [Arithmetic α] : Arithmetic α :=
  { (inferInstance : Arithmetic α) with storePower := id }

/-- Exponents of time may be stored before or after they are added and negated. -/
structure Arithmetic.StoresInWords (α : Type) [Arithmetic α] : Prop where
  zero : Arithmetic.storePower α 0 = 0
  one : Arithmetic.storePower α 1 = 1
  add (m n : ℤ) : Arithmetic.storePower α (Arithmetic.storePower α m + Arithmetic.storePower α n) =
    Arithmetic.storePower α (m + n)
  neg (n : ℤ) : Arithmetic.storePower α (-Arithmetic.storePower α n) = Arithmetic.storePower α (-n)

variable {α : Type} [Arithmetic α]

open Arithmetic (StoresInWords)

namespace Monomial

/-- A term with its exponent of time as it is stored. -/
def stored (m : Monomial α) : Monomial α :=
  { m with timePower := Arithmetic.storePower α m.timePower }

theorem mul_stored (h : StoresInWords α) (a b : Monomial α) :
    a.stored.mul b.stored = stored <$> @mul α (.unbounded α) a b := by
  cases ha : a.oscillation <;> cases hb : b.oscillation <;> simp [mul, stored, ha, hb, h.add]
  all_goals rfl

theorem reciprocal_stored (h : StoresInWords α) (m : Monomial α) :
    m.stored.reciprocal = stored <$> @reciprocal α (.unbounded α) m := by
  cases ho : m.oscillation <;> cases hs : m.symbols <;> cases hc : m.coefficient == 0 <;>
    simp [reciprocal, stored, ho, hs, hc, h.neg]
  rfl

theorem products_stored (h : StoresInWords α) (left right : List (Monomial α)) :
    products (left.map stored) (right.map stored) =
      (@products α (.unbounded α) left right).map (stored <$> ·) := by
  unfold products
  rw [List.map_flatMap, List.flatMap_map]
  refine List.flatMap_congr fun a _ => ?_
  rw [List.map_map, List.map_map]
  exact List.map_congr_left fun b _ => mul_stored h a b

theorem mulSums_stored (h : StoresInWords α) (left right : List (Monomial α)) :
    mulSums (left.map stored) (right.map stored) =
      List.map stored <$> @mulSums α (.unbounded α) left right := by
  rw [mulSums, products_stored h, Except.mapM_id_map]
  rfl

theorem constant_stored (h : StoresInWords α) (x : α) : (constant x).stored = constant x :=
  congrArg (fun n => (⟨x, 0, n, none, []⟩ : Monomial α)) h.zero

theorem powSum_stored (h : StoresInWords α) (base : List (Monomial α)) (n : ℕ) :
    powSum (base.map stored) n = List.map stored <$> @powSum α (.unbounded α) base n := by
  induction n with
  | zero => exact congrArg (fun m => Except.ok [m]) (constant_stored h 1).symm
  | succ n ih =>
    change (powSum (base.map stored) n >>= fun ts => mulSums ts (base.map stored)) =
      List.map stored <$> (@powSum α (.unbounded α) base n >>= fun ts => @mulSums α (.unbounded α) ts base)
    rw [ih]
    cases @powSum α (.unbounded α) base n with
    | error reason => rfl
    | ok ts => exact mulSums_stored h ts base

theorem map_negate_stored (ts : List (Monomial α)) :
    (ts.map stored).map .negate = (ts.map .negate).map stored := by
  rw [List.map_map, List.map_map]
  rfl

theorem nonzero_stored (ts : List (Monomial α)) :
    nonzero (ts.map stored) = (@nonzero α (.unbounded α) ts).map stored := by
  rw [nonzero, List.filter_map]
  rfl

end Monomial

namespace Expr

open Monomial

theorem linearIn_unbounded (v : String) (e : Expr α) :
    @linearIn α (Arithmetic.unbounded α) v e = e.linearIn v := by
  induction e with
  | number x => rfl
  | symbol name => rfl
  | unknown command => rfl
  | negate e ih =>
    change (@linearIn α (.unbounded α) v e).map Linear.negate = _
    rw [ih]
    rfl
  | binary op left right ihl ihr =>
    change ((@linearIn α (.unbounded α) v left).bind fun p =>
      (@linearIn α (.unbounded α) v right).bind fun q => Linear.combine? op p q) = _
    rw [ihl, ihr]
    rfl
  | call f arg ih =>
    change (@linearIn α (.unbounded α) v arg).bind (Linear.call? f) = _
    rw [ih]
    rfl

theorem constantValue_unbounded (e : Expr α) :
    @constantValue α (Arithmetic.unbounded α) e = e.constantValue := by
  unfold constantValue
  rw [linearIn_unbounded]
  rfl

theorem nonzero_eq_stored {x : Except (Rejection α) (List (Monomial α))}
    {y : Except (Rejection α) (List (Monomial α))} (h : x = List.map stored <$> y) :
    (x >>= fun ts => Except.ok (nonzero ts)) =
      List.map stored <$> (y >>= fun ts => Except.ok (@nonzero α (.unbounded α) ts)) := by
  rw [h]
  cases y with
  | error reason => rfl
  | ok ts => exact congrArg Except.ok (nonzero_stored ts)

/-- An expression that expands to terms without a power of time in either arithmetic. -/
theorem expand_stored_of_plain {ts : List (Monomial α)} (h : ∀ m ∈ ts, m.stored = m) :
    (Except.ok (nonzero ts) : Except (Rejection α) _) =
      List.map stored <$> Except.ok (@nonzero α (.unbounded α) ts) := by
  have hts : ts.map stored = ts.map id := List.map_congr_left h
  rw [List.map_id] at hts
  exact nonzero_eq_stored (x := .ok ts) (y := .ok ts) (congrArg Except.ok hts.symm)

theorem divided_stored (h : StoresInWords α) (x : Except (Rejection α) (List (Monomial α)))
    (us : List (Monomial α)) : divided (List.map stored <$> x) (us.map stored) =
      List.map stored <$> @divided α (.unbounded α) x us := by
  rcases us with _ | ⟨d, _ | ⟨d', us⟩⟩
  · rfl
  · simp only [divided, List.map_singleton, reciprocal_stored h]
    cases @reciprocal α (.unbounded α) d with
    | error reason => rfl
    | ok r =>
      cases x with
      | error reason => rfl
      | ok ts => exact nonzero_eq_stored (mulSums_stored h ts [r])
  · rfl

theorem expand_stored (h : StoresInWords α) (e : Expr α) :
    e.expand = List.map stored <$> @expand α (.unbounded α) e := by
  induction e with
  | number x => exact expand_stored_of_plain (List.forall_mem_singleton.mpr (constant_stored h x))
  | symbol name =>
    rw [expand_symbol, @expand_symbol α (.unbounded α)]
    refine expand_stored_of_plain (List.forall_mem_singleton.mpr ?_)
    split_ifs
    · exact congrArg (fun n => (⟨1, 0, n, none, []⟩ : Monomial α)) h.one
    · exact constant_stored h _
    · exact congrArg (fun n => (⟨1, 0, n, none, [name]⟩ : Monomial α)) h.zero
  | unknown command => rfl
  | negate e ih =>
    rw [expand_negate_eq, @expand_negate_eq α (.unbounded α), ih]
    cases @expand α (.unbounded α) e with
    | error reason => rfl
    | ok ts => exact congrArg Except.ok (map_negate_stored ts)
  | binary op left right ihl ihr =>
    cases op with
    | add =>
      rw [expand_add_eq, @expand_add_eq α (.unbounded α), ihl, ihr]
      cases @expand α (.unbounded α) left with
      | error reason => rfl
      | ok ts =>
        cases @expand α (.unbounded α) right with
        | error reason => rfl
        | ok us => exact congrArg Except.ok List.map_append.symm
    | sub =>
      rw [expand_sub_eq, @expand_sub_eq α (.unbounded α), ihl, ihr]
      cases @expand α (.unbounded α) left with
      | error reason => rfl
      | ok ts =>
        cases @expand α (.unbounded α) right with
        | error reason => rfl
        | ok us =>
          change Except.ok (ts.map stored ++ (us.map stored).map Monomial.negate) =
            Except.ok ((ts ++ us.map Monomial.negate).map stored)
          rw [map_negate_stored, List.map_append]
    | mul =>
      rw [expand_mul_eq, @expand_mul_eq α (.unbounded α), ihl, ihr]
      cases @expand α (.unbounded α) left with
      | error reason => rfl
      | ok ts =>
        cases @expand α (.unbounded α) right with
        | error reason => rfl
        | ok us => exact nonzero_eq_stored (mulSums_stored h ts us)
    | div =>
      rw [expand_div_eq, @expand_div_eq α (.unbounded α), ihl, ihr]
      cases @expand α (.unbounded α) right with
      | error reason => rfl
      | ok us => exact divided_stored h _ us
    | pow =>
      cases hn : right.constantValue with
      | none =>
        rw [expand_pow_eq, @expand_pow_eq α (.unbounded α), constantValue_unbounded, hn]
        rfl
      | some n =>
        cases hb : left.constantValue with
        | some b =>
          rw [expand_pow_eq, @expand_pow_eq α (.unbounded α), constantValue_unbounded,
            constantValue_unbounded, hn, hb]
          exact expand_stored_of_plain (List.forall_mem_singleton.mpr (constant_stored h _))
        | none =>
          have hn' := (constantValue_unbounded right).trans hn
          have hb' := (constantValue_unbounded left).trans hb
          by_cases hguard : (n < 0 || !Arithmetic.isWhole n || (maxPower : α) < n) = true
          · rw [expand_pow_unsupported hn hb hguard,
              @expand_pow_unsupported α (.unbounded α) _ _ n hn' hb' hguard]
            rfl
          · rw [expand_pow_supported hn hb hguard,
              @expand_pow_supported α (.unbounded α) _ _ n hn' hb' hguard, ihl]
            cases @expand α (.unbounded α) left with
            | error reason => rfl
            | ok ts => exact nonzero_eq_stored (powSum_stored h ts (Arithmetic.toCount n))
  | call f arg ih =>
    rw [expand_call_eq, @expand_call_eq α (.unbounded α), linearIn_unbounded]
    cases arg.linearIn timeName with
    | none => rfl
    | some p =>
      change (expandCall f p >>= fun ts => Except.ok (nonzero ts)) =
        List.map stored <$> (expandCall f p >>= fun ts => Except.ok (@nonzero α (.unbounded α) ts))
      cases hcall : expandCall f p with
      | error reason => rfl
      | ok ts =>
        refine expand_stored_of_plain fun m hm => ?_
        rw [stored, (plain_of_expandCall hcall hm).1, h.zero, ← (plain_of_expandCall hcall hm).1]

theorem ofAttempt_stored {x y : Except (Rejection α) (List (Monomial α))}
    (h : x = List.map stored <$> y) : Salvage.ofAttempt x =
      ⟨(Salvage.ofAttempt y).terms.map stored, (Salvage.ofAttempt y).rejected⟩ := by
  rw [h]
  cases y <;> rfl

theorem summands_stored (h : StoresInWords α) (e : Expr α) : e.summands =
    ⟨(@summands α (.unbounded α) e).terms.map stored, (@summands α (.unbounded α) e).rejected⟩ := by
  induction e with
  | number x => exact ofAttempt_stored (expand_stored h (number x))
  | symbol name => exact ofAttempt_stored (expand_stored h (symbol name))
  | unknown command => rfl
  | call f arg => exact ofAttempt_stored (expand_stored h (call f arg))
  | negate e ih =>
    unfold summands
    rw [ih, map_negate_stored]
    rfl
  | binary op left right ihl ihr =>
    cases op with
    | add =>
      unfold summands
      rw [ihl, ihr, List.map_append]
    | sub =>
      unfold summands
      rw [ihl, ihr]
      dsimp only
      rw [map_negate_stored, ← List.map_append]
      rfl
    | mul =>
      unfold summands
      rw [ihl, ihr]
      dsimp only
      rw [products_stored h]
      refine congrArg₂ Salvage.mk ?_ (congrArg _ ?_)
      · rw [List.filterMap_map, List.map_filterMap]
        refine List.filterMap_congr fun x _ => ?_
        cases x <;> rfl
      · rw [List.filterMap_map]
        refine List.filterMap_congr fun x _ => ?_
        cases x <;> rfl
    | div => exact ofAttempt_stored (expand_stored h (binary .div left right))
    | pow => exact ofAttempt_stored (expand_stored h (binary .pow left right))

theorem expandLenient_stored (h : StoresInWords α) (e : Expr α) : e.expandLenient =
    ⟨(@expandLenient α (.unbounded α) e).terms.map stored,
      (@expandLenient α (.unbounded α) e).rejected⟩ := by
  rw [expandLenient, summands_stored h, nonzero_stored]
  rfl

end Expr

end Oscillator
