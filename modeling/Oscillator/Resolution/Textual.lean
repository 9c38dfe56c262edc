import Oscillator.Expr.Expansion
import Oscillator.Expr.Parser
import Oscillator.Expr.Placeholder
import Oscillator.Resolution.Basic
import Oscillator.Settings

/-! # Constants from text

The constants of each regime as they stand in a rendered solution. Terms of another shape are
ignored, and a part that no term has is replaced by a default and reported.
-/
namespace Oscillator.Textual

variable {α : Type} [Arithmetic α]

/-- A value or its stand-in, with the reports of it. -/
abbrev Reported (α β : Type) := β × List (Degradation α)

/-- A part of a closed form, by default a given value. -/
def orDefault (component : Component) (default : α) : Option α → Reported α α
  | some x => (x, [])
  | none => (default, [.fallbackConstant component default])

/-- The two amplitudes if a term of the right shape was found, else the placeholder value twice. -/
def amplitudes (defaults : TextDefaults α) (found : Bool) (c1 c2 : α) : Reported α (α × α) :=
  if found then ((c1, c2), [])
  else ((defaults.placeholder, defaults.placeholder),
    [.fallbackConstant .amplitudes defaults.placeholder])

/-- Whether two rates or frequencies are the same up to rounding. -/
def sameRate (a b : α) : Bool :=
  Arithmetic.abs (a - b) ≤ 1e-9 * Arithmetic.larger (Arithmetic.abs a) 1

/-- The waves of one frequency, added up. -/
structure Waves (α : Type) where
  frequency : Option α
  cosine : α
  sine : α
  found : Bool
  deriving DecidableEq, Repr

namespace Waves

def none : Waves α := ⟨.none, 0, 0, false⟩

/-- Adds a term if it is a wave of the frequency met first. -/
def add (w : Waves α) (term : Monomial α) : Waves α :=
  match term.oscillation with
  | .none => w
  | some o =>
    let frequency := w.frequency.getD o.frequency
    if sameRate frequency o.frequency then
      match o.wave with
      | .cosine => ⟨some frequency, w.cosine + term.coefficient, w.sine, true⟩
      | .sine => ⟨some frequency, w.cosine, w.sine + term.coefficient, true⟩
    else { w with frequency := some frequency }

def ofTerms (terms : List (Monomial α)) : Waves α := terms.foldl add none

end Waves

/-- The decay rate of the first term without a power of time that decays, among those that
oscillate or those that do not. -/
def decayRate? (terms : List (Monomial α)) (oscillating : Bool) : Option α :=
  (terms.find? fun t =>
    decide (t.rate < 0) && t.timePower == 0 && t.oscillation.isSome == oscillating).map (-·.rate)

/-- The terms that neither decay nor grow. -/
def steadyTerms (terms : List (Monomial α)) : List (Monomial α) :=
  terms.filter fun t => t.rate == 0 && t.timePower == 0

/-- The terms that decay at a rate. -/
def decayingTerms (terms : List (Monomial α)) (alpha : α) : List (Monomial α) :=
  terms.filter fun t => decide (t.rate < 0) && t.timePower == 0 && sameRate (-t.rate) alpha

def undamped (defaults : TextDefaults α) (terms : List (Monomial α)) :
    Reported α (Coefficients α) :=
  let waves := Waves.ofTerms (steadyTerms terms)
  let (omega, d) := orDefault .angularFrequency defaults.angularFrequency waves.frequency
  let ((c1, c2), d') := amplitudes defaults waves.found waves.cosine waves.sine
  (.undamped c1 c2 omega, d ++ d')

def underdamped (defaults : TextDefaults α) (terms : List (Monomial α)) :
    Reported α (Coefficients α) :=
  let (alpha, d) := orDefault .decayRate defaults.underdampedDecay (decayRate? terms true)
  let waves := Waves.ofTerms (decayingTerms terms alpha)
  let (omegaD, d') := orDefault .angularFrequency defaults.angularFrequency waves.frequency
  let ((c1, c2), d'') := amplitudes defaults waves.found waves.cosine waves.sine
  (.underdamped c1 c2 alpha omegaD, d ++ d' ++ d'')

/-- Decaying waves are the transient; steady ones and constants are the steady motion. -/
def forced (defaults : TextDefaults α) (terms : List (Monomial α)) :
    Reported α (Coefficients α) :=
  let (alpha, d) := orDefault .decayRate defaults.forcedDecay (decayRate? terms true)
  let transient := Waves.ofTerms (decayingTerms terms alpha)
  let steady := Waves.ofTerms (steadyTerms terms)
  let offset := ((terms.filter (·.isConstant)).map (·.coefficient)).foldl (· + ·) 0
  let (omegaD, d') := orDefault .angularFrequency defaults.angularFrequency transient.frequency
  let (frequency, d'') := orDefault .forcingFrequency defaults.forcingFrequency steady.frequency
  let ((c1, c2), d''') :=
    amplitudes defaults (transient.found || steady.found) transient.cosine transient.sine
  (.forced c1 c2 alpha omegaD ⟨offset, steady.cosine, steady.sine, frequency⟩,
    d ++ d' ++ d'' ++ d''')

/-- The terms of a decay are its amplitude, and those with time itself the second one. -/
def critical (defaults : TextDefaults α) (terms : List (Monomial α)) :
    Reported α (Coefficients α) :=
  let still := terms.filter (·.oscillation.isNone)
  let (rate, d) := orDefault .decayRate defaults.criticalRate
    ((still.find? fun t => decide (t.rate < 0)).map (-·.rate))
  let decaying := still.filter fun t => sameRate (-t.rate) rate
  let coefficient (power : Int) : α :=
    ((decaying.filter (·.timePower == power)).map (·.coefficient)).foldl (· + ·) 0
  let found := decaying.any fun t => t.timePower == 0 || t.timePower == 1
  let ((c1, c2), d') := amplitudes defaults found (coefficient 0) (coefficient 1)
  (.critical c1 c2 rate, d ++ d')

/-- An exponential `coefficient · exp (rate · t)`. -/
structure Exponential (α : Type) where
  rate : α
  coefficient : α
  deriving DecidableEq, Repr

/-- Adds a term to the exponential of its rate, or starts one unless there are two. -/
def addExponential (found : List (Exponential α)) (term : Monomial α) : List (Exponential α) :=
  match found.findIdx? fun e => sameRate e.rate term.rate with
  | some i => found.modify i fun e => { e with coefficient := e.coefficient + term.coefficient }
  | none => if found.length < 2 then found ++ [⟨term.rate, term.coefficient⟩] else found

/-- The first two decaying exponentials of different rates. -/
def overdamped (defaults : TextDefaults α) (terms : List (Monomial α)) :
    Reported α (Coefficients α) :=
  let decaying := terms.filter fun t =>
    decide (t.rate < 0) && t.timePower == 0 && t.oscillation.isNone
  let missing (rate : α) : Reported α (Exponential α) :=
    (⟨-rate, 0⟩, [.fallbackConstant .overdampedRate rate])
  let otherRate (r1 : α) : α :=
    if sameRate r1 (-defaults.secondOverdampedRate) then defaults.firstOverdampedRate
    else defaults.secondOverdampedRate
  let found := decaying.foldl addExponential []
  let (first, d) := match found[0]? with
    | some e => (e, [])
    | none => missing defaults.firstOverdampedRate
  let (second, d') := match found[1]? with
    | some e => (e, [])
    | none => missing (otherRate first.rate)
  let ((c1, c2), d'') :=
    amplitudes defaults (!found.isEmpty) first.coefficient second.coefficient
  (.overdamped c1 c2 first.rate second.rate, d ++ d' ++ d'')

/-- The solution itself, which follows the last equals sign. -/
def rightHandSide (text : String) : String :=
  String.ofList (text.toList.reverse.takeWhile (· != '=')).reverse

/-- The terms of a text; one that is no expression has none. -/
def readTerms (text : String) : List (Monomial α) :=
  match Expr.parse text with
  | .ok e => e.expandLenient.terms
  | .error _ => []

/-- A term with the placeholder value in place of its symbols. -/
def substitute (placeholder : α) (term : Monomial α) : Monomial α :=
  { term with
    coefficient := term.symbols.foldl (fun x _ => x * placeholder) term.coefficient
    symbols := [] }

/-- The symbols that have no value: the placeholders in a text, and the symbols of its terms. -/
def unresolved (text : String) (terms : List (Monomial α)) : Names :=
  ((terms.flatMap (·.symbols)).map Placeholder.canonical).foldl (fun names n => names.insert n)
    (Placeholder.find text)

/-- The constants of a regime, from terms without symbols. -/
def coefficients (regime : Regime) (defaults : TextDefaults α) (terms : List (Monomial α)) :
    Reported α (Coefficients α) :=
  match regime with
  | .undamped => undamped defaults terms
  | .underdamped => underdamped defaults terms
  | .forced => forced defaults terms
  | .critical => critical defaults terms
  | .overdamped => overdamped defaults terms

def resolve (regime : Regime) (solution : String) (properties : Option (Properties α))
    (defaults : TextDefaults α) : Resolution α :=
  let text := rightHandSide solution
  let terms := readTerms text
  let symbols := unresolved text terms
  let (coefficients, degradations) :=
    coefficients regime defaults (terms.map (substitute defaults.placeholder))
  { regime, mode := .textual, coefficients, system := none
    characteristics := properties.bind Characteristics.ofProperties?
    degradations :=
      (if symbols.isEmpty then []
        else [.unresolvedConstants symbols defaults.placeholder]) ++ degradations }

end Oscillator.Textual
