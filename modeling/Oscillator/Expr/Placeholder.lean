import Oscillator.Text.Letter
import Oscillator.Text.Names

/-! # Placeholders

The names `C1`, `C2`, … that a solution text gives to constants of integration. They are found in
the text itself too, so that a text which is no expression still tells of them.
-/
namespace Oscillator.Placeholder

/-- Whether a name is `C` or `c` followed by digits. -/
def isPlaceholder (name : String) : Bool :=
  match name.toList with
  | c :: digits => (c = 'C' || c = 'c') && !digits.isEmpty && digits.all Char.isDigit
  | [] => false

/-- Placeholders are named with a capital letter, other symbols as they are. -/
def canonical (name : String) : String :=
  if isPlaceholder name then String.ofList (name.toList.map Char.toUpper) else name

/-- The character that stands for the index in `1`, `_1` or `_{1`. -/
def indexChar? : List Char → Option Char
  | '_' :: '{' :: cs => cs.head?
  | '_' :: cs => cs.head?
  | cs => cs.head?

/-- The placeholder whose letter stands between two parts of a text: its index is 1 or 2, and it
is neither inside a word nor a command. -/
def between? (before : Option Char) (c : Char) (after : List Char) : Option String :=
  if c != 'C' && c != 'c' then none
  else if before.any fun b => Text.isLetter b || b == '\\' then none
  else match indexChar? after with
    | some '1' => some "C1"
    | some '2' => some "C2"
    | _ => none

def findFrom (before : Option Char) : List Char → Names
  | [] => []
  | c :: after =>
    let later := findFrom (some c) after
    match between? before c after with
    | some name => later.insert name
    | none => later

def find (text : String) : Names := findFrom none text.toList

end Oscillator.Placeholder
