import Oscillator.Expr.Expansion
import Oscillator.Expr.Parser
import Oscillator.Harmonic

/-! # Forcing literals

A forcing is typed as an expression in `t`. It has to be a constant plus waves of one frequency,
without decay, powers of time or symbols.
-/
namespace Oscillator

inductive ForcingError (α : Type) where
  | unreadable (e : ParseError)
  | rejected (reason : Rejection α)
  | unresolved (symbols : Names)
  | notHarmonic
  | mixedFrequencies (first second : α)
  deriving DecidableEq, Repr

def ForcingError.message : ForcingError Float → String
  | unreadable e => e.message
  | rejected reason => reason.message
  | unresolved symbols => "Unresolved symbols in forcing: " ++ ", ".intercalate symbols
  | notHarmonic => "Forcing must be a constant plus a single harmonic"
  | mixedFrequencies first second =>
    "Forcing mixes frequencies " ++ Decimal.ofFloat first ++ " and " ++ Decimal.ofFloat second

namespace Forcing

variable {α : Type} [Arithmetic α]

/-- Adds a term to a forcing whose frequency is zero as long as no wave has been added. -/
def addTerm (forcing : Harmonic α) (term : Monomial α) :
    Except (ForcingError α) (Harmonic α) :=
  if !term.symbols.isEmpty then .error (.unresolved term.symbols)
  else if term.rate != 0 || term.timePower != 0 then .error .notHarmonic
  else match term.oscillation with
    | none => .ok { forcing with offset := forcing.offset + term.coefficient }
    | some ⟨wave, frequency⟩ =>
      let tolerance := 1e-12 * Arithmetic.larger frequency 1
      if forcing.frequency != 0
          && decide (tolerance < Arithmetic.abs (forcing.frequency - frequency)) then
        .error (.mixedFrequencies forcing.frequency frequency)
      else
        let frequency := if forcing.frequency == 0 then frequency else forcing.frequency
        match wave with
        | .cosine => .ok { forcing with cosine := forcing.cosine + term.coefficient, frequency }
        | .sine => .ok { forcing with sine := forcing.sine + term.coefficient, frequency }

/-- The forcing that a sum of monomials is. -/
def ofTerms (terms : List (Monomial α)) : Except (ForcingError α) (Harmonic α) :=
  terms.foldlM addTerm .zero

def parse (literal : String) : Except (ForcingError α) (Harmonic α) := do
  let e ← (Expr.parse literal).mapError .unreadable
  let terms ← e.expand.mapError .rejected
  ofTerms terms

end Forcing

end Oscillator
