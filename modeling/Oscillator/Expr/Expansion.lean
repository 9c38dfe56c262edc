import Oscillator.Expr.Linear
import Oscillator.Expr.Monomial

/-! # Expansion

Expressions multiplied out into sums of monomials. `expand` gives up at the first part that is no
such sum, and `expandLenient` leaves those parts out and tells why.
-/
namespace Oscillator.Expr

variable {α : Type} [Arithmetic α]

/-- The largest power of a sum that is multiplied out. -/
def maxPower : Nat := 8

/-- A function of `slope · t + phase` by the addition theorems, with positive frequencies. -/
def expandCall (f : Func) (p : Linear α) : Except (Rejection α) (List (Monomial α)) :=
  let phase := p.intercept
  let direction := Arithmetic.sign p.slope
  let frequency := Arithmetic.abs p.slope
  match f, p.isConstant with
  | .exp, _ => .ok [.exponential (Arithmetic.exp phase) p.slope]
  | .sin, true => .ok [.constant (Arithmetic.sin phase)]
  | .cos, true => .ok [.constant (Arithmetic.cos phase)]
  | f, true =>
    if Arithmetic.isFinite (f.apply phase) then .ok [.constant (f.apply phase)]
    else .error (.nonFiniteValue f phase)
  | .sin, false => .ok [
      .oscillating (direction * Arithmetic.cos phase) .sine frequency,
      .oscillating (Arithmetic.sin phase) .cosine frequency]
  | .cos, false => .ok [
      .oscillating (Arithmetic.cos phase) .cosine frequency,
      .oscillating (-direction * Arithmetic.sin phase) .sine frequency]
  | f, false => .error (.unsupportedFunction f)

/-- The sum of monomials that an expression stands for, without those of coefficient zero. -/
def expand (e : Expr α) : Except (Rejection α) (List (Monomial α)) := do
  return Monomial.nonzero (← match e with
    | number x => .ok [.constant x]
    | symbol name =>
      if name = timeName then .ok [.time]
      else if name = eulerName then .ok [.constant Arithmetic.euler]
      else .ok [.symbol name]
    | negate e => do return (← e.expand).map .negate
    | binary .add left right => do return (← left.expand) ++ (← right.expand)
    | binary .sub left right => do return (← left.expand) ++ (← right.expand).map .negate
    | binary .mul left right => do Monomial.mulSums (← left.expand) (← right.expand)
    | binary .div left right => do
      match ← right.expand with
      | [divisor] =>
        let reciprocal ← divisor.reciprocal
        Monomial.mulSums (← left.expand) [reciprocal]
      | _ => .error .sumDivisor
    | binary .pow base exponent =>
      match exponent.constantValue, base.constantValue with
      | none, _ => .error .varyingExponent
      | some n, some b => .ok [.constant (Arithmetic.pow b n)]
      | some n, none =>
        if n < 0 || !Arithmetic.isWhole n || (maxPower : α) < n then .error (.unsupportedPower n)
        else do Monomial.powSum (← base.expand) (Arithmetic.toCount n)
    | call f arg =>
      match arg.linearIn timeName with
      | some p => expandCall f p
      | none => .error (.nonlinearArgument f)
    | unknown command => .error (.unknownCommand command))

/-- Monomials, and why the others were left out. -/
structure Salvage (α : Type) where
  terms : List (Monomial α)
  rejected : List (Rejection α)
  deriving DecidableEq, Repr

/-- The summands of an expression, with sums and their products taken apart. -/
def summands : Expr α → Salvage α
  | binary .add left right =>
    let l := left.summands
    let r := right.summands
    ⟨l.terms ++ r.terms, l.rejected ++ r.rejected⟩
  | binary .sub left right =>
    let l := left.summands
    let r := right.summands
    ⟨l.terms ++ r.terms.map .negate, l.rejected ++ r.rejected⟩
  | negate e => ⟨e.summands.terms.map .negate, e.summands.rejected⟩
  | binary .mul left right =>
    let l := left.summands
    let r := right.summands
    let products := Monomial.products l.terms r.terms
    ⟨products.filterMap Except.toOption,
      l.rejected ++ r.rejected ++ products.filterMap fun
        | .error reason => some reason
        | .ok _ => none⟩
  | e =>
    match e.expand with
    | .ok terms => ⟨terms, []⟩
    | .error reason => ⟨[], [reason]⟩

/-- Expands term by term, and leaves out the summands that are no sum of monomials. -/
def expandLenient (e : Expr α) : Salvage α :=
  ⟨Monomial.nonzero e.summands.terms, e.summands.rejected⟩

end Oscillator.Expr
