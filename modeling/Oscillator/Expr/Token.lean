import Oscillator.Decimal.Numeral
import Oscillator.Expr.Basic
import Oscillator.Text.Blank
import Oscillator.Text.Letter

/-! # Tokens

One scanner for two notations: what is typed into a form (`2*cos(3*t)`) and rendered
mathematics (`\left(C_{1} + C_{2} t\right) e^{- \frac{1}{2} t}`). Characters that mean nothing
in either are skipped, so every text has tokens.
-/
namespace Oscillator

inductive Bracket where
  | paren
  | brace
  deriving DecidableEq, Repr

inductive Token (α : Type) where
  | number (x : α)
  | symbol (name : String)
  | func (f : Func)
  | command (name : String)
  | fraction
  | plus
  | minus
  | times
  | slash
  | caret
  | opening (b : Bracket)
  | closing (b : Bracket)
  deriving DecidableEq, Repr

namespace Token

variable {α : Type} [Arithmetic α]

/-- Commands that only space or size what stands beside them. -/
def layoutCommands : List String :=
  ["left", "right", "quad", "qquad", "displaystyle", "big", "Big"]

/-- What a command of ASCII letters stands for, if anything. -/
def ofCommand? (name : String) : Option (Token α) :=
  if name ∈ ["frac", "dfrac", "tfrac"] then some fraction
  else if name ∈ ["cdot", "times"] then some times
  else if name = "pi" then some (number Arithmetic.pi)
  else if let some f := Func.ofName? name then some (func f)
  else if name ∈ layoutCommands then none
  else some (command name)

/-- The function or constant that a whole run of letters names. -/
def ofWord? (word : List Char) : Option (Token α) :=
  if word = ['p', 'i'] then some (number Arithmetic.pi)
  else (Func.ofName? (String.ofList word)).map func

/-- A symbol for each letter, the last one first. -/
def letters (word : List Char) : List (Token α) :=
  (word.map fun c => symbol (String.singleton c)).reverse

/-- What a single mark stands for, if anything. -/
def ofMark? : Char → Option (Token α)
  | '+' => some plus
  | '-' | '−' => some minus
  | '*' | '·' => some times
  | '/' => some slash
  | '^' => some caret
  | '(' | '[' => some (opening .paren)
  | ')' | ']' => some (closing .paren)
  | '{' => some (opening .brace)
  | '}' => some (closing .brace)
  | _ => none

/-- The number of a run of digits and points, zero if it is no numeral. -/
def ofDigits (run : List Char) : Token α :=
  match Decimal.fixedPoint? run with
  | some (m, e) => number (Arithmetic.decimal m e)
  | none => number 0

/-- Extends the name of the symbol read last, given the tokens read so far in reverse; an index
after anything else is dropped. -/
def index (suffix : List Char) : List (Token α) → List (Token α)
  | symbol name :: before => symbol (name ++ String.ofList suffix) :: before
  | tokens => tokens

/-- The index after an underscore and the characters that follow it: one letter or digit, or those
of a braced group. -/
def splitSubscript : List Char → List Char × List Char
  | '{' :: cs =>
    ((cs.takeWhile (· != '}')).filter Text.isLetterOrDigit, (cs.dropWhile (· != '}')).drop 1)
  | c :: cs => if Text.isLetterOrDigit c then ([c], cs) else ([], c :: cs)
  | [] => ([], [])

theorem splitSubscript_length (cs : List Char) :
    (splitSubscript cs).2.length ≤ cs.length := by
  have dropped (p : Char → Bool) (l : List Char) : (l.dropWhile p).length ≤ l.length :=
    (List.dropWhile_sublist p).length_le
  unfold splitSubscript
  split
  · simp only [List.length_drop, List.length_cons]
    have := dropped (· != '}') ‹_›
    omega
  · split <;> simp
  · simp

def isNumeralChar (c : Char) : Bool := c.isDigit || c == '.'

/-- The tokens of a text after those read so far, which are given in reverse. -/
def scan (read : List (Token α)) (cs : List Char) : List (Token α) :=
  match cs with
  | [] => read.reverse
  | c :: rest =>
    if Text.isBlank c then scan read rest
    else if isNumeralChar c then
      scan (ofDigits (c :: rest.takeWhile isNumeralChar) :: read) (rest.dropWhile isNumeralChar)
    else if c = '\\' then
      let name := rest.takeWhile Char.isAlpha
      -- A backslash before anything but a letter hides the next character.
      if name.isEmpty then scan read (rest.drop 1)
      else scan ((ofCommand? (String.ofList name)).toList ++ read) (rest.dropWhile Char.isAlpha)
    else if Text.isLetter c then
      let word := c :: rest.takeWhile Text.isLetter
      let afterWord := rest.dropWhile Text.isLetter
      match ofWord? word with
      | some token => scan (token :: read) afterWord
      -- Digits right after a symbol are its index.
      | none =>
        scan (index (afterWord.takeWhile Char.isDigit) (letters word ++ read))
          (afterWord.dropWhile Char.isDigit)
    else if c = '_' then
      scan (index (splitSubscript rest).1 read) (splitSubscript rest).2
    else if c = '*' ∧ rest.head? = some '*' then scan (caret :: read) (rest.drop 1)
    else scan ((ofMark? c).toList ++ read) rest
termination_by cs.length
decreasing_by
  all_goals
    have dropped (p : Char → Bool) (l : List Char) : (l.dropWhile p).length ≤ l.length :=
      (List.dropWhile_sublist p).length_le
    have := splitSubscript_length rest
    grind [List.length_cons, List.length_drop]

@[simp] theorem scan_nil (read : List (Token α)) : scan read [] = read.reverse := by
  rw [scan]

def ofText (s : String) : List (Token α) := scan [] s.toList

/-- Whether a token can start a factor, so that it multiplies what stands before it. -/
def startsFactor : Token α → Bool
  | number _ | symbol _ | func _ | command _ | fraction | opening _ => true
  | _ => false

end Token

end Oscillator
