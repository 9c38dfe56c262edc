import Oscillator.Proofs.Expansion.Leniency

/-! # Opposite readings

An expression may read as the opposite of another one: the same terms in the same order with opposite
coefficients, and the same parts left out. A first factor that reads as the opposite makes the
whole product or quotient do so, in an arithmetic where the sign of a factor passes to the product.
-/
namespace Oscillator

/-- The opposite of a factor makes the opposite of the product, and zeros stay zeros. -/
class Arithmetic.LawfulNeg (α : Type) [Arithmetic α] : Prop where
  neg_mul (x y : α) : -x * y = -(x * y)
  neg_bne_zero (x : α) : (-x != 0) = (x != 0)

variable {α : Type} [Arithmetic α]

theorem Except.mapM_id_map {ε β γ : Type} (f : β → γ) (xs : List (Except ε β)) :
    (xs.map (f <$> ·)).mapM id = List.map f <$> xs.mapM id := by
  induction xs with
  | nil => rfl
  | cons x xs ih =>
    simp only [List.map_cons, List.mapM_cons, ih, id]
    cases x with
    | error err => rfl
    | ok b => cases xs.mapM id <;> rfl

namespace Monomial

variable [Arithmetic.LawfulNeg α]

theorem mul_negate (a b : Monomial α) : a.negate.mul b = negate <$> a.mul b := by
  unfold mul negate
  split
  case isTrue => rfl
  case isFalse =>
    rw [Arithmetic.LawfulNeg.neg_mul]
    rfl

theorem products_negate (left right : List (Monomial α)) :
    products (left.map .negate) right = (products left right).map (negate <$> ·) := by
  induction left with
  | nil => rfl
  | cons a left ih =>
    simp only [products, List.map_cons, List.flatMap_cons, List.map_append, List.map_map] at ih ⊢
    rw [ih]
    congr 1
    refine List.map_congr_left fun b _ => ?_
    exact mul_negate a b

theorem mulSums_negate (left right : List (Monomial α)) :
    mulSums (left.map .negate) right = List.map negate <$> mulSums left right := by
  rw [mulSums, products_negate, Except.mapM_id_map, mulSums]

theorem nonzero_map_negate (ts : List (Monomial α)) :
    nonzero (ts.map .negate) = (nonzero ts).map .negate := by
  rw [nonzero, List.filter_map, nonzero]
  refine congrArg _ (List.filter_congr fun m _ => ?_)
  exact Arithmetic.LawfulNeg.neg_bne_zero m.coefficient

/-- The product of two sums without its zeros, as both a product and a quotient end in it. -/
theorem mulSums_nonzero_negate (left right : List (Monomial α)) :
    (mulSums (left.map .negate) right >>= fun c => Except.ok (nonzero c)) =
      List.map negate <$> (mulSums left right >>= fun c => Except.ok (nonzero c)) := by
  rw [mulSums_negate]
  cases mulSums left right with
  | error reason => rfl
  | ok c => exact congrArg Except.ok (nonzero_map_negate c)

end Monomial

namespace Expr

open Monomial

/-- What is read of `e'` is the opposite of what is read of `e`. -/
structure Negates (e' e : Expr α) : Prop where
  expand : e'.expand = List.map Monomial.negate <$> e.expand
  terms : e'.summands.terms = e.summands.terms.map .negate
  rejected : e'.summands.rejected = e.summands.rejected

theorem negates_negate (e : Expr α) : Negates (.negate e) e := by
  refine ⟨?_, rfl, rfl⟩
  rw [expand_negate_eq]
  cases e.expand <;> rfl

variable [Arithmetic.LawfulNeg α] {l l' : Expr α}

theorem Negates.mul (h : Negates l' l) (r : Expr α) :
    Negates (.binary .mul l' r) (.binary .mul l r) := by
  refine ⟨?_, ?_, ?_⟩
  · rw [expand_mul_eq, expand_mul_eq, h.expand]
    cases l.expand with
    | error reason => rfl
    | ok a =>
      cases r.expand with
      | error reason => rfl
      | ok b => exact mulSums_nonzero_negate a b
  · simp only [summands]
    rw [h.terms, products_negate, List.filterMap_map, List.map_filterMap]
    refine List.filterMap_congr fun x _ => ?_
    cases x <;> rfl
  · simp only [summands]
    rw [h.terms, h.rejected, products_negate, List.filterMap_map]
    congr 1
    refine List.filterMap_congr fun x _ => ?_
    cases x <;> rfl

theorem Negates.div (h : Negates l' l) (r : Expr α) :
    Negates (.binary .div l' r) (.binary .div l r) := by
  have hexpand : (binary .div l' r).expand =
      List.map Monomial.negate <$> (binary .div l r).expand := by
    rw [expand_div_eq, expand_div_eq]
    cases r.expand with
    | error reason => rfl
    | ok b =>
      rcases b with _ | ⟨d, _ | ⟨d', ds⟩⟩
      · rfl
      · simp only [Except.ok_bind, divided]
        cases d.reciprocal with
        | error reason => rfl
        | ok q =>
          rw [h.expand]
          cases l.expand with
          | error reason => rfl
          | ok a => exact mulSums_nonzero_negate a [q]
      · rfl
  have hsummands (l : Expr α) :
      (binary .div l r).summands = Salvage.ofAttempt (binary .div l r).expand := rfl
  refine ⟨hexpand, ?_, ?_⟩
  · rw [hsummands, hsummands, hexpand]
    cases (binary .div l r).expand <;> rfl
  · rw [hsummands, hsummands, hexpand]
    cases (binary .div l r).expand <;> rfl

theorem Negates.expandLenient (h : Negates l' l) : l'.expandLenient =
    ⟨l.expandLenient.terms.map .negate, l.expandLenient.rejected⟩ := by
  rw [Expr.expandLenient, h.terms, h.rejected, nonzero_map_negate]
  rfl

end Expr

end Oscillator
