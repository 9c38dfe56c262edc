import Oscillator.Decimal.Shortest
import Oscillator.Record.Value
import Oscillator.Text.Blank

/-! # Fields of records

Objects are read member by member in the order they are written; a member of an unknown name is
ignored, and a missing one leaves its default. A list stands for an object with its fields in
order.
-/
namespace Oscillator

/-- Why a record is not what it should be. -/
inductive RecordError where
  | malformed
  /-- A text stands where a number should, and is none. -/
  | notNumeric (text : String)
  deriving DecidableEq, Repr

/-- What is said of a record, where there is more to say than that it is malformed. -/
def RecordError.message? : RecordError → Option String
  | malformed => none
  | notNumeric text => some ("expected a number, got \"" ++ text ++ "\"")

namespace Record

/-- The members of a record that has the given fields. -/
def members? (fields : List String) : Record → Option (List (String × Record))
  | object members => some members
  | list items => if items.length ≤ fields.length then some (fields.zip items) else none
  | _ => none

/-- Reads a record by adding its members to a default. -/
def build {β : Type} (fields : List String) (add : β → String → Record → Except RecordError β)
    (default : β) (r : Record) : Except RecordError β :=
  match r.members? fields with
  | some members => members.foldlM (fun b (name, value) => add b name value) default
  | none => .error .malformed

def required {β : Type} : Option β → Except RecordError β
  | some b => .ok b
  | none => .error .malformed

/-- Reads `null` as absence. -/
def nullable {β : Type} (read : Record → Except RecordError β) :
    Record → Except RecordError (Option β)
  | null => .ok none
  | r => some <$> read r

def readNumber (r : Record) : Except RecordError Float := required r.number?

def readCount (r : Record) : Except RecordError Nat := required r.count?

def readBool (r : Record) : Except RecordError Bool := required r.bool?

def readText (r : Record) : Except RecordError String := required r.text?

def readNumbers (r : Record) : Except RecordError (List Float) := do
  (← required r.list?).mapM readNumber

/-- A number, or a form field that holds one as text; an empty field holds none. -/
def readNumberField : Record → Except RecordError (Option Float)
  | null => .ok none
  | text s =>
    let s := Text.trim s
    if s = "" || s = "null" then .ok none
    else match Decimal.Numeral.ofText? s with
      | some x => .ok (some x.value)
      | none => .error (.notNumeric s)
  | r => some <$> readNumber r

/-- A text, or a number as its text; an empty field holds none. -/
def readTextField : Record → Except RecordError (Option String)
  | null => .ok none
  | text s =>
    let s := Text.trim s
    .ok (if s = "" || s = "undefined" then none else some s)
  | r => (fun x => some (Decimal.ofFloat x)) <$> readNumber r

end Record

end Oscillator
