import Oscillator.Proofs.Parsing.Rules

/-! # Printed expressions

A tree with every operand in brackets, as it is typed and as rendered mathematics has it. The tokens
of either text are read as the tree, except that a power of Euler's number becomes the exponential
function.
-/
namespace Oscillator

/-- As typed into a form, or as rendered mathematics with or without a blank after each command. -/
inductive Style where
  | plain
  | rendered (spaced : Bool)
  deriving DecidableEq, Repr

namespace Token

variable {α : Type}

/-- The commands that the scanner knows. -/
def knownCommands : List String :=
  ["frac", "dfrac", "tfrac", "cdot", "times", "pi"] ++ Func.all.map Func.name ++ layoutCommands

/-- A letter and the digits of its index. -/
def isSymbolName (name : String) : Bool :=
  match name.toList with
  | [] => false
  | c :: digits => c.isAlpha && digits.all Char.isDigit

/-- A run of letters. -/
def isWord (name : String) : Bool := !name.toList.isEmpty && name.toList.all Char.isAlpha

def isUnknownCommand (name : String) : Bool := isWord name && !knownCommands.contains name

end Token

namespace Style

open Token

def command (spaced : Bool) (name : String) : String :=
  "\\" ++ name ++ if spaced then " " else ""

def braces (s : String) : String := "\x7b" ++ s ++ "\x7d"

/-- A text in the round brackets of its style. -/
def operand : Style → String → String
  | plain, s => "(" ++ s ++ ")"
  | rendered spaced, s => command spaced "left" ++ "(" ++ s ++ command spaced "right" ++ ")"

def mark : Op → String
  | .add => "+"
  | .sub => "-"
  | .mul => "*"
  | .div => "/"
  | .pow => "^"

def binary (style : Style) (op : Op) (l r : String) : String :=
  match style, op with
  | rendered _, .mul => style.operand l ++ style.operand r
  | rendered spaced, .div => command spaced "frac" ++ braces l ++ braces r
  | rendered _, .pow => style.operand l ++ "^" ++ braces r
  | _, op => style.operand l ++ mark op ++ style.operand r

def call : Style → Func → String → String
  | plain, f, s => f.name ++ operand plain s
  | rendered spaced, f, s => command spaced f.name ++ braces (operand (rendered spaced) s)

variable {α : Type}

def binaryTokens (style : Style) (op : Op) (l r : List (Token α)) : List (Token α) :=
  match style, op with
  | rendered _, .mul => bracketed .paren l ++ bracketed .paren r
  | rendered _, .div => fraction :: (bracketed .brace l ++ bracketed .brace r)
  | rendered _, .pow => bracketed .paren l ++ caret :: bracketed .brace r
  | _, op => bracketed .paren l ++ ofOp op :: bracketed .paren r

def callTokens : Style → Func → List (Token α) → List (Token α)
  | plain, f, ts => func f :: bracketed .paren ts
  | rendered _, f, ts => func f :: bracketed .brace (bracketed .paren ts)

end Style

namespace Expr

def map {α β : Type} (f : α → β) : Expr α → Expr β
  | number x => number (f x)
  | symbol name => symbol name
  | negate e => negate (e.map f)
  | binary op l r => binary op (l.map f) (r.map f)
  | call g e => call g (e.map f)
  | unknown command => unknown command

section

variable {α : Type} [DecidableEq α]

/-- Each power of the symbol for Euler's number as a call of the exponential function. -/
def withExp : Expr α → Expr α
  | negate e => negate e.withExp
  | binary op l r =>
    if op = .pow ∧ l = symbol eulerName then call .exp r.withExp
    else binary op l.withExp r.withExp
  | call f e => call f e.withExp
  | e => e

/-- No power has Euler's number as its base. -/
def HasNoEulerPower : Expr α → Prop
  | negate e | call _ e => e.HasNoEulerPower
  | binary op l r =>
    ¬(op = .pow ∧ l = symbol eulerName) ∧ l.HasNoEulerPower ∧ r.HasNoEulerPower
  | _ => True

theorem withExp_eq_self {e : Expr α} (h : e.HasNoEulerPower) : e.withExp = e := by
  induction e with
  | number | symbol | unknown => rfl
  | negate e ih => rw [withExp, ih h]
  | call f e ih => rw [withExp, ih h]
  | binary op l r ihl ihr => rw [withExp, if_neg h.1, ihl h.2.1, ihr h.2.2]

theorem power_map_withExp {β : Type} (f : α → β) (l r : Expr α) :
    power (l.withExp.map f) (r.withExp.map f) = (binary .pow l r).withExp.map f := by
  rw [withExp]
  by_cases hl : l = symbol eulerName
  · subst hl
    rw [if_pos ⟨rfl, rfl⟩]
    rfl
  · rw [if_neg fun h => hl h.2]
    cases l with
    | symbol name =>
      have hname : name ≠ eulerName := fun h => hl (h ▸ rfl)
      exact if_neg hname
    | binary op l' r' =>
      by_cases hop : op = .pow ∧ l' = symbol eulerName <;> simp [withExp, hop, map, power]
    | number | negate | call | unknown => rfl

end

/-- Every symbol is a letter with an index, and every unknown command is one. -/
inductive IsWritable : Expr Nat → Prop
  | number (n : Nat) : IsWritable (number n)
  | symbol {name : String} (h : Token.isSymbolName name) : IsWritable (symbol name)
  | unknown {command : String} (h : Token.isUnknownCommand command) : IsWritable (unknown command)
  | negate {e : Expr Nat} (h : IsWritable e) : IsWritable (negate e)
  | binary (op : Op) {l r : Expr Nat} (hl : IsWritable l) (hr : IsWritable r) :
    IsWritable (binary op l r)
  | call (f : Func) {e : Expr Nat} (h : IsWritable e) : IsWritable (call f e)

/-- The printed tree; a blank always ends an unknown command. -/
def written (style : Style) : Expr Nat → String
  | number n => toString n
  | symbol name => name
  | unknown command => Style.command true command
  | negate e => "-" ++ style.operand (e.written style)
  | binary op l r => style.binary op (l.written style) (r.written style)
  | call f e => style.call f (e.written style)

variable {α : Type} [Arithmetic α]

/-- The tokens of a printed tree. -/
def tokens (style : Style) : Expr Nat → List (Token α)
  | number n => [.number (n : α)]
  | symbol name => [.symbol name]
  | unknown command => [.command command]
  | negate e => .minus :: Token.bracketed .paren (e.tokens style)
  | binary op l r => style.binaryTokens op (l.tokens style) (r.tokens style)
  | call f e => style.callTokens f (e.tokens style)

/-- The tokens of a printed tree are read as the tree. -/
theorem isSum_tokens (style : Style) (e : Expr Nat) :
    IsSum (e.tokens (α := α) style) (e.withExp.map Nat.cast) := by
  induction e with
  | number n => exact (isOperand_number _).isSum
  | symbol name => exact (isOperand_symbol _).isSum
  | unknown command => exact (isOperand_unknown _).isSum
  | negate e ih => exact (ih.bracketed .paren).negate.isSum
  | call f e ih =>
    cases style with
    | plain => exact (ih.call f .paren).isSum
    | rendered => exact ((ih.bracketed .paren).isSum.call f .brace).isSum
  | binary op l r ihl ihr =>
    have hl := ihl.bracketed .paren
    have hr := ihr.bracketed .paren
    cases op with
    | add | sub =>
      rw [withExp, if_neg (by simp)]
      cases style <;>
        exact hl.isPower.isProduct.binary (by simp) hr.isPower.isProduct
    | mul =>
      rw [withExp, if_neg (by simp)]
      cases style with
      | plain => exact (hl.isPower.binary (.inl rfl) hr.isPower).isSum
      -- Without a sign the bracket of the second factor has to start it.
      | rendered => exact (hl.isPower.juxtaposed rfl hr.isPower).isSum
    | div =>
      rw [withExp, if_neg (by simp)]
      cases style with
      | plain => exact (hl.isPower.binary (.inr rfl) hr.isPower).isSum
      | rendered => exact (ihl.fraction ihr .brace .brace).isSum
    | pow =>
      rw [← power_map_withExp]
      cases style with
      | plain => exact (hl.power hr).isProduct.isSum
      | rendered => exact (hl.power (ihr.bracketed .brace)).isProduct.isSum

end Expr

end Oscillator
