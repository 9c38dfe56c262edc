import Oscillator.Record.Fields
import Oscillator.Response

/-! # Responses as records

A solver's response as it arrives: numbers may be texts of a form, tags name the regime, and a
reported property that cannot be read is absent.
-/
namespace Oscillator

namespace Parameters

def empty {α : Type} : Parameters α := ⟨none, none, none, none, none, none, none, none⟩

def fields : List String :=
  ["mass", "stiffness", "damping", "force", "initial_position", "initial_velocity", "beta",
    "omega_sq"]

def addMember (p : Parameters Float) (name : String) (r : Record) :
    Except RecordError (Parameters Float) := do
  match name with
  | "mass" => return { p with mass := ← r.readNumberField }
  | "stiffness" => return { p with stiffness := ← r.readNumberField }
  | "damping" => return { p with damping := ← r.readNumberField }
  | "force" => return { p with force := ← r.readTextField }
  | "initial_position" => return { p with initialPosition := ← r.readNumberField }
  | "initial_velocity" => return { p with initialVelocity := ← r.readNumberField }
  | "beta" => return { p with beta := ← r.readNumberField }
  | "omega_sq" => return { p with omegaSquared := ← r.readNumberField }
  | _ => return p

def ofRecord : Record → Except RecordError (Parameters Float) := Record.build fields addMember empty

end Parameters

/-- A property is a number, a complex number with parts `real` and `imag`, or a number as text.
Without an imaginary part it is real. -/
def Property.ofRecord? : Record → Option (Property Float)
  | .text s => (Decimal.Numeral.ofText? (Text.trim s)).map fun x => .real x.value
  | .object members => do
    let re ← (← (Record.object members).get? "real").number?
    match (Record.object members).get? "imag" with
    | some im => return .complex re (← im.number?)
    | none => return .complex re 0
  | r => r.number?.map .real

namespace Properties

def empty {α : Type} : Properties α := ⟨none, none, none, none, none, none⟩

def fields : List String :=
  ["natural_frequency", "damping_coefficient", "damped_frequency", "damping_ratio",
    "damped_period", "logarithmic_decrement"]

/-- The symbols by which properties may be named, and their names. -/
def aliases : List (String × String) :=
  [("omega_0", "natural_frequency"), ("alpha", "damping_coefficient"),
    ("omega_d", "damped_frequency"), ("zeta", "damping_ratio")]

def addMember (p : Properties Float) (name : String) (r : Record) : Properties Float :=
  let property := Property.ofRecord? r
  match (aliases.lookup name).getD name with
  | "natural_frequency" => { p with naturalFrequency := property }
  | "damping_coefficient" => { p with dampingCoefficient := property }
  | "damped_frequency" => { p with dampedFrequency := property }
  | "damping_ratio" => { p with dampingRatio := property }
  | "damped_period" => { p with dampedPeriod := property }
  | "logarithmic_decrement" => { p with logarithmicDecrement := property }
  | _ => p

/-- A property must not be given both by its name and by its symbol. -/
def ofRecord (r : Record) : Except RecordError (Properties Float) :=
  if aliases.any fun (symbol, name) => (r.get? symbol).isSome && (r.get? name).isSome then
    .error .malformed
  else r.build fields (fun p name value => .ok (p.addMember name value)) empty

end Properties

namespace CoefficientLists

def empty {α : Type} : CoefficientLists α := ⟨[], [], []⟩

def fields : List String := ["frequencies", "decay_rates", "amplitudes"]

def addMember (c : CoefficientLists Float) (name : String) (r : Record) :
    Except RecordError (CoefficientLists Float) := do
  match name with
  | "frequencies" => return { c with frequencies := ← r.readNumbers }
  | "decay_rates" => return { c with decayRates := ← r.readNumbers }
  | "amplitudes" => return { c with amplitudes := ← r.readNumbers }
  | _ => return c

def ofRecord : Record → Except RecordError (CoefficientLists Float) :=
  Record.build fields addMember empty

end CoefficientLists

namespace Response

def empty {α : Type} : Response α := ⟨.undamped, none, none, none, none, none⟩

def fields : List String :=
  ["classification", "solution", "equation", "parameters", "system_properties",
    "numerical_coefficients"]

def addMember (p : Response Float) (name : String) (r : Record) :
    Except RecordError (Response Float) := do
  match name with
  | "classification" => return { p with regime := .ofTag (← r.readText) }
  | "solution" => return { p with solution := ← r.nullable Record.readText }
  | "equation" => return { p with equation := ← r.nullable Record.readText }
  | "parameters" => return { p with parameters := ← r.nullable Parameters.ofRecord }
  | "system_properties" => return { p with properties := ← r.nullable Properties.ofRecord }
  | "numerical_coefficients" =>
    return { p with coefficientLists := ← r.nullable CoefficientLists.ofRecord }
  | _ => return p

def ofRecord : Record → Except RecordError (Response Float) := Record.build fields addMember empty

end Response

end Oscillator
