import Oscillator.Arithmetic
import Oscillator.Decimal.Shortest
import Oscillator.Expr.Basic
import Oscillator.Text.Names

/-! # Monomials

Products `coefficient · t ^ n · exp (rate · t) · wave (frequency · t) · symbols`, which closed-form
solutions are sums of.
-/
namespace Oscillator

inductive Wave where
  | cosine
  | sine
  deriving DecidableEq, Repr

/-- A wave of a positive angular frequency. -/
structure Oscillation (α : Type) where
  wave : Wave
  frequency : α
  deriving DecidableEq, Repr

structure Monomial (α : Type) where
  coefficient : α
  /-- The slope of the exponent; a decaying term has a negative one. -/
  rate : α
  timePower : Int
  oscillation : Option (Oscillation α)
  /-- The symbols without a value that multiply the term, each named once. -/
  symbols : Names
  deriving DecidableEq, Repr

inductive Rejection (α : Type) where
  | oscillatingProduct
  | oscillatingDivisor
  | zeroDivisor
  | sumDivisor
  | unknownCommand (name : String)
  | varyingExponent
  | unsupportedPower (exponent : α)
  | nonlinearArgument (f : Func)
  | nonFiniteValue (f : Func) (arg : α)
  | unsupportedFunction (f : Func)
  deriving DecidableEq, Repr

def Rejection.message : Rejection Float → String
  | oscillatingProduct => "Products of oscillating factors are not supported"
  | oscillatingDivisor => "Cannot divide by an oscillating or symbolic factor"
  | zeroDivisor => "Division by zero"
  | sumDivisor => "Cannot divide by a sum"
  | unknownCommand name => "Unsupported command \\" ++ name
  | varyingExponent => "Exponent must be constant"
  | unsupportedPower exponent => "Unsupported power " ++ Decimal.ofFloat exponent
  | nonlinearArgument f => "Argument of " ++ f.name ++ " is not linear in t"
  | nonFiniteValue f arg => f.name ++ "(" ++ Decimal.ofFloat arg ++ ") is not finite"
  | unsupportedFunction f => "Unsupported function: " ++ f.name

namespace Monomial

variable {α : Type} [Arithmetic α]

def constant (x : α) : Monomial α := ⟨x, 0, 0, none, []⟩

def symbol (name : String) : Monomial α := ⟨1, 0, 0, none, [name]⟩

def time : Monomial α := ⟨1, 0, 1, none, []⟩

def exponential (coefficient rate : α) : Monomial α := ⟨coefficient, rate, 0, none, []⟩

def oscillating (coefficient : α) (wave : Wave) (frequency : α) : Monomial α :=
  ⟨coefficient, 0, 0, some ⟨wave, frequency⟩, []⟩

def isConstant (m : Monomial α) : Bool :=
  m.rate == 0 && m.timePower == 0 && m.oscillation.isNone

def negate (m : Monomial α) : Monomial α := { m with coefficient := -m.coefficient }

/-- The product, unless both factors oscillate. -/
def mul (a b : Monomial α) : Except (Rejection α) (Monomial α) :=
  if a.oscillation.isSome && b.oscillation.isSome then .error .oscillatingProduct
  else .ok {
    coefficient := a.coefficient * b.coefficient
    rate := a.rate + b.rate
    timePower := Arithmetic.storePower α (a.timePower + b.timePower)
    oscillation := a.oscillation <|> b.oscillation
    symbols := a.symbols.union b.symbols }

def reciprocal (m : Monomial α) : Except (Rejection α) (Monomial α) :=
  if m.oscillation.isSome || !m.symbols.isEmpty then .error .oscillatingDivisor
  else if m.coefficient == 0 then .error .zeroDivisor
  else .ok {
    coefficient := 1 / m.coefficient
    rate := -m.rate
    timePower := Arithmetic.storePower α (-m.timePower)
    oscillation := none
    symbols := [] }

def products (left right : List (Monomial α)) : List (Except (Rejection α) (Monomial α)) :=
  left.flatMap fun a => right.map a.mul

/-- The product of two sums, or why one of the products is none. -/
def mulSums (left right : List (Monomial α)) : Except (Rejection α) (List (Monomial α)) :=
  (products left right).mapM id

/-- A power of a sum, multiplied out. -/
def powSum (base : List (Monomial α)) : Nat → Except (Rejection α) (List (Monomial α))
  | 0 => .ok [constant 1]
  | n + 1 => do mulSums (← powSum base n) base

/-- The terms whose coefficient is not zero. -/
def nonzero (terms : List (Monomial α)) : List (Monomial α) :=
  terms.filter (·.coefficient != 0)

end Monomial

end Oscillator
