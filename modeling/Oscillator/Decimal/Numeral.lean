import Oscillator.Arithmetic

/-! # Numerals

Decimal numerals as they are typed: an optional sign, digits with at most one point, an optional
power of ten; or one of the words for infinity and for no number. A numeral is exact, and
an arithmetic gives it its nearest number.
-/
namespace Oscillator.Decimal

/-- A number as written: `± mantissa · 10 ^ exponent`, an infinity, or no number. -/
inductive Numeral where
  | finite (negative : Bool) (mantissa : Nat) (exponent : Int)
  | infinite (negative : Bool)
  | notANumber
  deriving DecidableEq, Repr

def digitsValue (digits : List Char) : Nat :=
  digits.foldl (fun n d => 10 * n + (d.toNat - '0'.toNat)) 0

/-- Digits with at most one point, and at least one digit: mantissa and power of ten. -/
def fixedPoint? (cs : List Char) : Option (Nat × Int) :=
  let whole := cs.takeWhile Char.isDigit
  match cs.dropWhile Char.isDigit with
  | [] => if whole.isEmpty then none else some (digitsValue whole, 0)
  | point :: places =>
    if point = '.' && places.all Char.isDigit && !(whole.isEmpty && places.isEmpty) then
      some (digitsValue (whole ++ places), -(places.length : Int))
    else none

def splitSign : List Char → Bool × List Char
  | '-' :: cs => (true, cs)
  | '+' :: cs => (false, cs)
  | cs => (false, cs)

def integer? (cs : List Char) : Option Int :=
  let (negative, digits) := splitSign cs
  if digits.isEmpty || !digits.all Char.isDigit then none
  else if negative then some (-(digitsValue digits : Int)) else some (digitsValue digits)

/-- A fixed-point numeral with an optional power of ten after `e` or `E`. -/
def scientific? (cs : List Char) : Option (Nat × Int) :=
  let isMantissa (c : Char) : Bool := c != 'e' && c != 'E'
  let mantissa := fixedPoint? (cs.takeWhile isMantissa)
  match cs.dropWhile isMantissa with
  | [] => mantissa
  | _ :: power => do
    let (m, e) ← mantissa
    let p ← integer? power
    return (m, e + p)

namespace Numeral

/-- Reads a numeral; words are read in either case. -/
def ofChars? (cs : List Char) : Option Numeral :=
  let (negative, rest) := splitSign cs
  match rest.map Char.toLower with
  | ['i', 'n', 'f'] | ['i', 'n', 'f', 'i', 'n', 'i', 't', 'y'] => some (infinite negative)
  | ['n', 'a', 'n'] => some notANumber
  | _ => (scientific? rest).map fun (m, e) => finite negative m e

def ofText? (s : String) : Option Numeral := ofChars? s.toList

/-- The number that an arithmetic has for a numeral. -/
def value {α : Type} [Arithmetic α] : Numeral → α
  | finite false m e => Arithmetic.decimal m e
  | finite true m e => -Arithmetic.decimal m e
  | infinite false => 1 / 0
  | infinite true => -1 / 0
  | notANumber => Arithmetic.undefined

end Numeral

end Oscillator.Decimal
