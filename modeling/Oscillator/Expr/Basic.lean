/-! # Expressions

The trees that forcing literals and solution texts are read into. `t` names time and `e`
Euler's number; every other symbol is a constant without a value.
-/
namespace Oscillator

inductive Func where
  | sin
  | cos
  | tan
  | exp
  | sqrt
  deriving DecidableEq, Repr

namespace Func

def all : List Func := [sin, cos, tan, exp, sqrt]

def name : Func → String
  | sin => "sin"
  | cos => "cos"
  | tan => "tan"
  | exp => "exp"
  | sqrt => "sqrt"

def ofName? (s : String) : Option Func := all.find? (·.name == s)

end Func

inductive Op where
  | add
  | sub
  | mul
  | div
  | pow
  deriving DecidableEq, Repr

inductive Expr (α : Type) where
  | number (x : α)
  | symbol (name : String)
  | negate (e : Expr α)
  | binary (op : Op) (left right : Expr α)
  | call (f : Func) (arg : Expr α)
  /-- A command of rendered text that has no value, such as `\Gamma`. -/
  | unknown (command : String)
  deriving DecidableEq, Repr

namespace Expr

def timeName : String := "t"

def eulerName : String := "e"

variable {α : Type}

/-- A power; with Euler's number as its base it is the exponential function. -/
def power (base exponent : Expr α) : Expr α :=
  match base with
  | .symbol name => if name = eulerName then .call .exp exponent else .binary .pow base exponent
  | _ => .binary .pow base exponent

end Expr

end Oscillator
