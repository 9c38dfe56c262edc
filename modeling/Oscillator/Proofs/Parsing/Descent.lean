import Oscillator.Expr.Parser

/-! # Reading from a position

The recursive descent as it moves a position over the tokens. What is called, a rule of the grammar or the next
round of a loop, calls others in turn, and nothing says that these calls end: they go through a parameter. With it
tied to the descent itself, calls come back as long as no more than a given number of them are nested.
-/
namespace Oscillator

namespace Expr

/-- The rules of the grammar. -/
inductive Rule where
  | expression
  | sum
  | product
  | powers
  | unary
  | group
  | primary
  deriving DecidableEq, Repr

/-- The rules with a loop behind their first operand. -/
inductive Loop where
  | sum
  | product
  | powers
  deriving DecidableEq, Repr

/-- A reading from the position that it moves; `none` is one that does not come back. -/
abbrev Descent (β : Type) := StateT Nat (ExceptT ParseError Option) β

namespace Descent

variable {α : Type}

inductive Call (α : Type) where
  | rule (r : Rule)
  | loop (l : Loop) (left : Expr α)

section

variable (tokens : List (Token α))

def peek : Descent (Option (Token α)) := do return tokens[← get]?

/-- Takes the token at the position; behind the last one the position stays. -/
def consume : Descent (Option (Token α)) := do
  let next ← peek tokens
  if next.isSome then modify (· + 1)
  return next

def expect (b : Bracket) : Descent Unit := do
  match ← consume tokens with
  | some (.closing b') => if b' = b then return () else throw (.unclosed b)
  | _ => throw (.unclosed b)

/-- What is done for a call, given what its own calls do. -/
def body (call : Call α → Descent (Expr α)) : Call α → Descent (Expr α)
  | .rule .expression => call (.rule .sum)
  | .rule .sum => do call (.loop .sum (← call (.rule .product)))
  | .loop .sum left => do
    match ← peek tokens with
    | some .plus => do
      let _ ← consume tokens
      call (.loop .sum (.binary .add left (← call (.rule .product))))
    | some .minus => do
      let _ ← consume tokens
      call (.loop .sum (.binary .sub left (← call (.rule .product))))
    | _ => return left
  | .rule .product => do call (.loop .product (← call (.rule .powers)))
  | .loop .product left => do
    match ← peek tokens with
    | some .times => do
      let _ ← consume tokens
      call (.loop .product (.binary .mul left (← call (.rule .powers))))
    | some .slash => do
      let _ ← consume tokens
      call (.loop .product (.binary .div left (← call (.rule .powers))))
    | some t =>
      -- This round takes no token of its own: the loop moves on only because a power does.
      if t.startsFactor then call (.loop .product (.binary .mul left (← call (.rule .powers))))
      else return left
    | none => return left
  | .rule .powers => do call (.loop .powers (← call (.rule .unary)))
  | .loop .powers base => do
    match ← peek tokens with
    | some .caret => do
      let _ ← consume tokens
      call (.loop .powers (power base (← call (.rule .unary))))
    | _ => return base
  | .rule .unary => do
    match ← peek tokens with
    | some .minus => do
      let _ ← consume tokens
      return .negate (← call (.rule .unary))
    | some .plus => do
      let _ ← consume tokens
      call (.rule .unary)
    | _ => call (.rule .primary)
  | .rule .group => do
    match ← consume tokens with
    | some (.opening b) => do
      let e ← call (.rule .expression)
      expect tokens b
      return e
    | some (.number x) => return .number x
    | some (.symbol name) => return .symbol name
    | _ => throw .noGroup
  | .rule .primary => do
    match ← peek tokens with
    | some (.opening _) => call (.rule .group)
    | _ =>
      match ← consume tokens with
      | some (.number x) => return .number x
      | some (.symbol name) => return .symbol name
      | some (.command name) => return .unknown name
      | some (.func f) =>
        match ← peek tokens with
        | some (.opening _) => return .call f (← call (.rule .group))
        | _ => return .call f (← call (.rule .powers))
      | some .fraction => do
        let numerator ← call (.rule .group)
        let denominator ← call (.rule .group)
        return .binary .div numerator denominator
      | _ => throw .noOperand

/-- A call with at most `depth` calls nested in one another, itself among them. -/
def run : Nat → Call α → Descent (Expr α)
  | 0, _ => fun _ => (none : Option _)
  | depth + 1, c => body tokens (run depth) c

end

variable {tokens : List (Token α)} {t : Token α} {β : Type} {start pos : Nat}

/-! ## Steps -/

theorem bind_peek (next : Option (Token α) → Descent β) :
    (peek tokens >>= next) start = next tokens[start]? start := rfl

theorem bind_consume (ht : tokens[start]? = some t) (next : Option (Token α) → Descent β) :
    (consume tokens >>= next) start = next (some t) (start + 1) := by
  have htake : consume tokens start = some (.ok (some t, start + 1)) := by
    rw [consume, bind_peek, ht]
    rfl
  exact congrArg (· >>= _) htake

theorem bind_consume_none (ht : tokens[start]? = none) (next : Option (Token α) → Descent β) :
    (consume tokens >>= next) start = next none start := by
  have htake : consume tokens start = some (.ok (none, start)) := by
    rw [consume, bind_peek, ht]
    rfl
  exact congrArg (· >>= _) htake

theorem bind_expect {b : Bracket} (ht : tokens[start]? = some (.closing b)) (next : Unit → Descent β) :
    (expect tokens b >>= next) start = next () (start + 1) := by
  have htake : expect tokens b start = some (.ok ((), start + 1)) := by
    rw [expect, bind_consume ht]
    exact congrFun (if_pos rfl) _
  exact congrArg (· >>= _) htake

theorem bind_expect_of_ne {b : Bracket} (ht : tokens[start]? ≠ some (.closing b)) (next : Unit → Descent β) :
    (expect tokens b >>= next) start = some (.error (.unclosed b)) := by
  have hfail : expect tokens b start = some (.error (.unclosed b)) := by
    cases hnext : tokens[start]? with
    | none =>
      rw [expect, bind_consume_none hnext]
      rfl
    | some t =>
      rw [expect, bind_consume hnext]
      cases t with
      | closing b' =>
        have hb : b' ≠ b := by
          rintro rfl
          exact ht hnext
        exact congrFun (if_neg hb) _
      | _ => rfl
  exact congrArg (· >>= _) hfail

theorem drop_eq_cons (ht : tokens[start]? = some t) : tokens.drop start = t :: tokens.drop (start + 1) := by
  obtain ⟨h, rfl⟩ := List.getElem?_eq_some_iff.mp ht
  exact List.drop_eq_getElem_cons h

theorem drop_eq_nil (ht : tokens[start]? = none) : tokens.drop start = [] :=
  List.drop_eq_nil_of_le (List.getElem?_eq_none_iff.mp ht)

theorem lt_length (ht : tokens[start]? = some t) : start < tokens.length :=
  (List.getElem?_eq_some_iff.mp ht).1

theorem lt_of_length_drop_lt (h : (tokens.drop pos).length < (tokens.drop start).length) : start < pos := by
  simp only [List.length_drop] at h
  omega

end Descent

end Expr

end Oscillator
