import Oscillator.Decimal.Numeral

/-! # Records

The data that solver responses and settings come in: texts, numbers and truth values, in lists and
in objects with named members. A whole number keeps its own form, since only it can count.
-/
namespace Oscillator

inductive Record where
  | null
  | bool (b : Bool)
  /-- A number written as a whole one; a negative zero is not among them. -/
  | whole (n : Int)
  | number (x : Decimal.Numeral)
  | text (s : String)
  | list (items : List Record)
  | object (members : List (String × Record))
  deriving Repr, Inhabited

namespace Record

def get? (name : String) : Record → Option Record
  | object members => (members.find? (·.1 == name)).map (·.2)
  | _ => none

def number? {α : Type} [Arithmetic α] : Record → Option α
  | whole n => some (Decimal.Numeral.finite (n < 0) n.natAbs 0).value
  | number x => some x.value
  | _ => none

/-- The count below `2 ^ 64` that a record is. -/
def count? : Record → Option Nat
  | whole n => if 0 ≤ n && n < 0x10000000000000000 then some n.toNat else none
  | _ => none

def bool? : Record → Option Bool
  | bool b => some b
  | _ => none

def text? : Record → Option String
  | text s => some s
  | _ => none

def list? : Record → Option (List Record)
  | list items => some items
  | _ => none

end Record

end Oscillator
