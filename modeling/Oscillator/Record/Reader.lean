import Oscillator.Record.Value

/-! # Reading records

The notation of records: `null`, `true`, `false`, numbers, texts in double quotes with escapes,
lists in brackets and objects in braces. The text is split into lexemes first; every step of
the reader then leaves fewer lexemes than it was given.
-/
namespace Oscillator.Record

/-- A record without parts, or a mark that holds others together. -/
inductive Lexeme where
  | scalar (r : Record)
  | mark (c : Char)

/-- The number of four hexadecimal digits. -/
def hexValue (digits : List Char) : Nat :=
  digits.foldl (fun n d =>
    16 * n + (if d.isDigit then d.toNat - '0'.toNat else d.toLower.toNat - 'a'.toNat + 10)) 0

/-- The character that an escape letter stands for. -/
def escaped : Char → Char
  | 'n' => '\n'
  | 't' => '\t'
  | 'r' => '\r'
  | 'b' => '\x08'
  | 'f' => '\x0c'
  | c => c

/-- The characters up to the closing quote, escapes as they are, and what follows it. -/
def splitQuoted : List Char → Option (List Char × List Char)
  | '"' :: cs => some ([], cs)
  | '\\' :: c :: cs => (splitQuoted cs).map fun (raw, rest) => ('\\' :: c :: raw, rest)
  | c :: cs => (splitQuoted cs).map fun (raw, rest) => (c :: raw, rest)
  | [] => none

theorem splitQuoted_length {cs raw rest : List Char} (h : splitQuoted cs = some (raw, rest)) :
    rest.length < cs.length := by
  fun_induction splitQuoted cs generalizing raw rest with
  | case1 cs => simp_all
  | case2 c cs ih =>
    obtain ⟨⟨raw', rest'⟩, h, he⟩ := Option.map_eq_some_iff.1 h
    have := ih h
    simp_all
    omega
  | case3 c cs _ _ ih =>
    obtain ⟨⟨raw', rest'⟩, h, he⟩ := Option.map_eq_some_iff.1 h
    have := ih h
    simp_all
    omega
  | case4 => simp at h

/-- The code units and characters of a text with escapes, surrogates apart. -/
def unescape : List Char → List Nat
  | '\\' :: 'u' :: a :: b :: c :: d :: cs => hexValue [a, b, c, d] :: unescape cs
  | '\\' :: c :: cs => (escaped c).toNat :: unescape cs
  | c :: cs => c.toNat :: unescape cs
  | [] => []

/-- Joins each pair of surrogates into one character. -/
def joinSurrogates : List Nat → List Char
  | high :: low :: units =>
    if 0xd800 ≤ high ∧ high < 0xdc00 then
      Char.ofNat (0x10000 + (high - 0xd800) * 0x400 + (low - 0xdc00)) :: joinSurrogates units
    else Char.ofNat high :: joinSurrogates (low :: units)
  | [unit] => [Char.ofNat unit]
  | [] => []

def isNumberChar (c : Char) : Bool :=
  c.isDigit || c == '-' || c == '+' || c == '.' || c == 'e' || c == 'E'

/-- A number, which counts if it is written with digits only. -/
def ofNumber? (cs : List Char) : Option Record :=
  match Decimal.integer? cs with
  | some n => some (if n = 0 && cs.head? = some '-' then number (.finite true 0 0) else whole n)
  | none => (Decimal.Numeral.ofChars? cs).map number

def ofWord? (word : List Char) : Option Record :=
  match String.ofList word with
  | "null" => some null
  | "true" => some (bool true)
  | "false" => some (bool false)
  | _ => none

def lexemes (cs : List Char) : Option (List Lexeme) :=
  match cs with
  | [] => some []
  | c :: rest =>
    if c = ' ' || c = '\n' || c = '\r' || c = '\t' then lexemes rest
    else if c = '"' then
      match h : splitQuoted rest with
      | some (raw, after) =>
        have := splitQuoted_length h
        (lexemes after).map (.scalar (text (String.ofList (joinSurrogates (unescape raw)))) :: ·)
      | none => none
    else if c.isAlpha then do
      let r ← ofWord? (c :: rest.takeWhile Char.isAlpha)
      return .scalar r :: (← lexemes (rest.dropWhile Char.isAlpha))
    else if isNumberChar c then do
      let r ← ofNumber? (c :: rest.takeWhile isNumberChar)
      return .scalar r :: (← lexemes (rest.dropWhile isNumberChar))
    else (lexemes rest).map (.mark c :: ·)
termination_by cs.length
decreasing_by
  all_goals
    have dropped (p : Char → Bool) (l : List Char) : (l.dropWhile p).length ≤ l.length :=
      (List.dropWhile_sublist p).length_le
    grind [List.length_cons]

/-- A record read from the front of a list of lexemes, and fewer than `bound` of them after it. -/
structure Reading (bound : Nat) where
  record : Record
  rest : List Lexeme
  rest_lt : rest.length < bound

/-- A reading stays one when more lexemes are allowed. -/
def Reading.widen {m n : Nat} (r : Reading m) (h : m ≤ n) : Reading n :=
  ⟨r.record, r.rest, Nat.lt_of_lt_of_le r.rest_lt h⟩

/-- The lexemes after a mark, if they begin with it. -/
def afterMark? (c : Char) :
    (ls : List Lexeme) → Option {rest : List Lexeme // rest.length < ls.length}
  | .mark c' :: rest => if c' = c then some ⟨rest, Nat.lt_succ_self _⟩ else none
  | _ => none

mutual

def read (ls : List Lexeme) : Option (Reading ls.length) :=
  match ls with
  | .scalar r :: ls => some ⟨r, ls, Nat.lt_succ_self _⟩
  | .mark '[' :: ls =>
    match afterMark? ']' ls with
    | some ⟨rest, h⟩ => some ⟨list [], rest, Nat.lt_succ_of_lt h⟩
    | none => (readItems [] ls).map (·.widen (Nat.le_succ _))
  | .mark '{' :: ls =>
    match afterMark? '}' ls with
    | some ⟨rest, h⟩ => some ⟨object [], rest, Nat.lt_succ_of_lt h⟩
    | none => (readMembers [] ls).map (·.widen (Nat.le_succ _))
  | _ => none
termination_by (ls.length, 0)

/-- The rest of a list after the items read so far, which are given in reverse. -/
def readItems (items : List Record) (ls : List Lexeme) : Option (Reading ls.length) := do
  let ⟨r, rest, h⟩ ← read ls
  match afterMark? ',' rest with
  | some ⟨rest', h'⟩ =>
    return (← readItems (r :: items) rest').widen (by omega)
  | none =>
    let ⟨rest', h'⟩ ← afterMark? ']' rest
    return ⟨list (r :: items).reverse, rest', by omega⟩
termination_by (ls.length, 1)

/-- The rest of an object after the members read so far, which are given in reverse; a member
replaces an earlier one of its name. -/
def readMembers (members : List (String × Record)) (ls : List Lexeme) :
    Option (Reading ls.length) :=
  match ls with
  | .scalar (text name) :: .mark ':' :: ls => do
    let ⟨r, rest, h⟩ ← read ls
    let members := (name, r) :: members.filter (·.1 != name)
    match afterMark? ',' rest with
    | some ⟨rest', h'⟩ =>
      return (← readMembers members rest').widen (by simp only [List.length_cons]; omega)
    | none =>
      let ⟨rest', h'⟩ ← afterMark? '}' rest
      return ⟨object members.reverse, rest', by simp only [List.length_cons]; omega⟩
  | _ => none
termination_by (ls.length, 1)

end

def ofText? (s : String) : Option Record := do
  match ← read (← lexemes s.toList) with
  | ⟨r, [], _⟩ => return r
  | _ => none

end Oscillator.Record
