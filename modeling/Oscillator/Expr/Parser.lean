import Oscillator.Expr.Token

/-! # Reading expressions

A recursive-descent reader of tokens. Every step leaves fewer tokens than it was given, which its
result carries as a proof; so reading ends on every text, with a tree or with a reason.

    sum     = product (("+" | "-") product)*
    product = power (("*" | "/") power | power)*
    power   = unary ("^" unary)*
    unary   = ("-" | "+") unary | primary
    primary = group | command | function (group | power) | fraction group group
    group   = "(" sum ")" | "{" sum "}" | number | symbol
-/
namespace Oscillator

inductive ParseError where
  | empty
  | trailing (b : Bracket)
  | unclosed (b : Bracket)
  | noGroup
  | noOperand
  deriving DecidableEq, Repr

def ParseError.message : ParseError → String
  | empty => "Empty expression"
  | trailing .paren => "Unexpected trailing token RParen"
  | trailing .brace => "Unexpected trailing token RBrace"
  | unclosed .paren => "Expected ')'"
  | unclosed .brace => "Expected '\x7d'"
  | noGroup => "Expected a group"
  | noOperand => "Unexpected token"

namespace Expr

variable {α : Type}

/-- An expression read from the front of a token list, and fewer than `bound` tokens after it. -/
structure Reading (α : Type) (bound : Nat) where
  expr : Expr α
  rest : List (Token α)
  rest_lt : rest.length < bound

/-- The outcome of reading with `bound` tokens at most. -/
abbrev Outcome (α : Type) (bound : Nat) := Except ParseError (Reading α bound)

/-- A reading stays one when more tokens are allowed. -/
def Reading.widen {m n : Nat} (r : Reading α m) (h : m ≤ n) : Reading α n :=
  ⟨r.expr, r.rest, Nat.lt_of_lt_of_le r.rest_lt h⟩

/-- Requires a closing bracket after an expression. -/
def Reading.closed {n : Nat} (r : Reading α n) (b : Bracket) : Outcome α n :=
  match h : r.rest with
  | .closing b' :: rest =>
    if b' = b then .ok ⟨r.expr, rest, by have := r.rest_lt; simp [h] at this; omega⟩
    else .error (.unclosed b)
  | _ => .error (.unclosed b)

mutual

def sum (ts : List (Token α)) : Outcome α ts.length := do
  let ⟨left, rest, h⟩ ← product ts
  return (← sumTail left rest).widen h
termination_by (ts.length, 5)

/-- The terms after `left`; operators of one rank group to the left. -/
def sumTail (left : Expr α) (ts : List (Token α)) : Outcome α (ts.length + 1) :=
  match ts with
  | .plus :: ts => do
    let ⟨right, rest, h⟩ ← product ts
    return (← sumTail (.binary .add left right) rest).widen (by simp; omega)
  | .minus :: ts => do
    let ⟨right, rest, h⟩ ← product ts
    return (← sumTail (.binary .sub left right) rest).widen (by simp; omega)
  | ts => .ok ⟨left, ts, Nat.lt_succ_self _⟩
termination_by (ts.length, 5)

def product (ts : List (Token α)) : Outcome α ts.length := do
  let ⟨left, rest, h⟩ ← powers ts
  return (← productTail left rest).widen h
termination_by (ts.length, 4)

/-- The factors after `left`; one that follows without an operator multiplies too. -/
def productTail (left : Expr α) (ts : List (Token α)) : Outcome α (ts.length + 1) :=
  match ts with
  | [] => .ok ⟨left, [], by simp⟩
  | .times :: ts => do
    let ⟨right, rest, h⟩ ← powers ts
    return (← productTail (.binary .mul left right) rest).widen (by simp; omega)
  | .slash :: ts => do
    let ⟨right, rest, h⟩ ← powers ts
    return (← productTail (.binary .div left right) rest).widen (by simp; omega)
  | t :: ts =>
    if t.startsFactor then do
      let ⟨right, rest, h⟩ ← powers (t :: ts)
      return (← productTail (.binary .mul left right) rest).widen (by simp at h ⊢; omega)
    else .ok ⟨left, t :: ts, Nat.lt_succ_self _⟩
termination_by (ts.length, 4)

def powers (ts : List (Token α)) : Outcome α ts.length := do
  let ⟨base, rest, h⟩ ← unary ts
  return (← powersTail base rest).widen h
termination_by (ts.length, 3)

/-- The exponents after `base`, which group to the left. -/
def powersTail (base : Expr α) (ts : List (Token α)) : Outcome α (ts.length + 1) :=
  match ts with
  | .caret :: ts => do
    let ⟨exponent, rest, h⟩ ← unary ts
    return (← powersTail (power base exponent) rest).widen (by simp; omega)
  | ts => .ok ⟨base, ts, Nat.lt_succ_self _⟩
termination_by (ts.length, 3)

def unary (ts : List (Token α)) : Outcome α ts.length :=
  match ts with
  | .minus :: ts => do
    let r ← unary ts
    return ⟨.negate r.expr, r.rest, by have := r.rest_lt; simp; omega⟩
  | .plus :: ts => do return (← unary ts).widen (by simp)
  | ts => primary ts
termination_by (ts.length, 2)

def primary (ts : List (Token α)) : Outcome α ts.length :=
  match ts with
  | .number x :: ts => .ok ⟨.number x, ts, by simp⟩
  | .symbol name :: ts => .ok ⟨.symbol name, ts, by simp⟩
  | .command name :: ts => .ok ⟨.unknown name, ts, by simp⟩
  | .func f :: .opening b :: ts => do
    let r ← group (.opening b :: ts)
    return ⟨.call f r.expr, r.rest, by have := r.rest_lt; simp at this ⊢; omega⟩
  | .func f :: ts => do
    let r ← powers ts
    return ⟨.call f r.expr, r.rest, by have := r.rest_lt; simp; omega⟩
  | .fraction :: ts => do
    let ⟨numerator, rest, h⟩ ← group ts
    let ⟨denominator, rest', h'⟩ ← group rest
    return ⟨.binary .div numerator denominator, rest', by simp; omega⟩
  | .opening b :: ts => group (.opening b :: ts)
  | _ => .error .noOperand
termination_by (ts.length, 1)

def group (ts : List (Token α)) : Outcome α ts.length :=
  match ts with
  | .opening b :: ts => do return (← (← sum ts).closed b).widen (by simp)
  | .number x :: ts => .ok ⟨.number x, ts, by simp⟩
  | .symbol name :: ts => .ok ⟨.symbol name, ts, by simp⟩
  | _ => .error .noGroup
termination_by (ts.length, 0)

end

/-- Reads all tokens as one expression. -/
def ofTokens (ts : List (Token α)) : Except ParseError (Expr α) :=
  if ts.isEmpty then .error .empty
  else do
    let r ← sum ts
    match r.rest with
    | [] => .ok r.expr
    | .closing b :: _ => .error (.trailing b)
    -- A sum ends only where the tokens do or before a closing bracket.
    | _ => .error .noOperand

def parse [Arithmetic α] (text : String) : Except ParseError (Expr α) :=
  ofTokens (Token.ofText text)

end Expr

end Oscillator
