import Oscillator.Proofs.Double.Product
import Oscillator.Proofs.Reading.Literal

/-! # Exponent notation in formulas

A numeral such as `1.5e-3` is a number where a field is read, but not in a formula: there `e` names Euler's
number and `E` a symbol, and digits right after a letter are its index. So `1.5e3` is a multiple of
the symbol `e3`, and `1.5e-3` is a difference.
-/
namespace Oscillator

namespace Decimal

variable {cs : List Char}

theorem isNumeralChar_of_fixedPoint? {r : ℕ × ℤ} (h : fixedPoint? cs = some r) :
    cs ≠ [] ∧ ∀ c ∈ cs, Token.isNumeralChar c = true := by
  have hdigit {c : Char} (hc : c.isDigit = true) : Token.isNumeralChar c = true := by
    rw [Token.isNumeralChar, hc, Bool.true_or]
  have hwhole : ∀ c ∈ cs.takeWhile Char.isDigit, Token.isNumeralChar c = true :=
    fun c hc => hdigit (List.mem_takeWhile_imp hc)
  refine ⟨?_, ?_⟩
  · rintro rfl
    cases h
  · rw [← List.takeWhile_append_dropWhile (p := Char.isDigit) (l := cs)]
    refine List.forall_mem_append.mpr ⟨hwhole, ?_⟩
    rw [fixedPoint?] at h
    cases hrest : cs.dropWhile Char.isDigit with
    | nil => exact List.forall_mem_nil _
    | cons point places =>
      rw [hrest] at h
      obtain ⟨hguard, -⟩ := Option.ite_none_right_eq_some.mp h
      rw [Bool.and_eq_true, Bool.and_eq_true, decide_eq_true_eq, List.all_eq_true] at hguard
      obtain ⟨⟨rfl, hplaces⟩, -⟩ := hguard
      exact List.forall_mem_cons.mpr ⟨rfl, fun c hc => hdigit (hplaces c hc)⟩

theorem splitSign_cons {c : Char} (hc : Token.isNumeralChar c = true) (cs : List Char) :
    splitSign (c :: cs) = (false, c :: cs) := by
  rw [splitSign]
  · rintro _ ⟨⟩
    cases hc
  · rintro _ ⟨⟩
    cases hc

/-- No word begins with a digit or a point. -/
theorem ofChars?_cons {c : Char} (hc : Token.isNumeralChar c = true) (cs : List Char) :
    Numeral.ofChars? (c :: cs) =
      (scientific? (c :: cs)).map fun r => .finite false r.1 r.2 := by
  have hlower (d : Char) (hd : c.toLower = d) : Token.isNumeralChar d = true := by
    have hcode := Text.isNumeralChar_iff.mp hc
    have hupper : ¬c.isUpper = true := by
      rw [Text.isUpper_iff]
      omega
    rwa [← hd, Char.toLower_eq_of_not_isUpper hupper]
  rw [Numeral.ofChars?, splitSign_cons hc]
  dsimp only
  split
  case h_1 h => cases hlower _ (List.cons.inj h).1
  case h_2 h => cases hlower _ (List.cons.inj h).1
  case h_3 h => cases hlower _ (List.cons.inj h).1
  case h_4 => rfl

end Decimal

/-- A numeral in exponent notation: a fixed-point numeral, a letter, maybe a sign, and digits. -/
structure ExponentNumeral where
  mantissa : String
  digits : ℕ
  places : ℤ
  fixedPoint : Decimal.fixedPoint? mantissa.toList = some (digits, places)
  letter : Char
  isExponentLetter : letter = 'e' ∨ letter = 'E'
  sign : Option Op
  isSign : ∀ op ∈ sign, op = .add ∨ op = .sub
  power : String
  power_ne_nil : power.toList ≠ []
  power_isDigit : ∀ c ∈ power.toList, c.isDigit = true

namespace ExponentNumeral

def signText : Option Op → String
  | none => ""
  | some .sub => "-"
  | some _ => "+"

def text (n : ExponentNumeral) : String :=
  n.mantissa ++ (String.singleton n.letter ++ (signText n.sign ++ n.power))

variable (n : ExponentNumeral)

/-- The power of ten that the numeral says. -/
def exponent : ℤ :=
  if n.sign = some .sub then -Decimal.digitsValue n.power.toList
  else Decimal.digitsValue n.power.toList

/-! As a field the numeral is read at its value. -/

theorem integer?_power :
    Decimal.integer? ((signText n.sign).toList ++ n.power.toList) = some n.exponent := by
  have hdigits : ¬(n.power.toList.isEmpty || !n.power.toList.all Char.isDigit) = true := by
    rw [Bool.not_eq_true, Bool.or_eq_false_iff, Bool.not_eq_false', List.all_eq_true]
    exact ⟨by simpa using n.power_ne_nil, n.power_isDigit⟩
  unfold exponent
  cases hsign : n.sign with
  | none =>
    obtain ⟨d, ds, hds⟩ := List.exists_cons_of_ne_nil n.power_ne_nil
    rw [hds] at hdigits ⊢
    have hd : Token.isNumeralChar d = true := by
      rw [Token.isNumeralChar, n.power_isDigit d (by rw [hds]; exact List.mem_cons_self), Bool.true_or]
    rw [signText, String.toList_empty, List.nil_append, Decimal.integer?, Decimal.splitSign_cons hd]
    exact if_neg hdigits
  | some op =>
    rcases n.isSign op hsign with rfl | rfl
    · exact if_neg hdigits
    · exact if_neg hdigits

theorem isMantissa {c : Char} (hc : Token.isNumeralChar c = true) : (c != 'e' && c != 'E') = true := by
  have := Text.isNumeralChar_iff.mp hc
  rw [Bool.and_eq_true, bne_iff_ne, bne_iff_ne]
  constructor
  · rintro rfl
    exact absurd hc (by decide)
  · rintro rfl
    exact absurd hc (by decide)

theorem scientific?_text :
    Decimal.scientific? n.text.toList = some (n.digits, n.places + n.exponent) := by
  obtain ⟨-, hchars⟩ := Decimal.isNumeralChar_of_fixedPoint? n.fixedPoint
  have htext : n.text.toList =
      n.mantissa.toList ++ n.letter :: ((signText n.sign).toList ++ n.power.toList) := by
    simp [text]
  have hletter : ∀ c ∈ (n.letter :: ((signText n.sign).toList ++ n.power.toList)).head?,
      (c != 'e' && c != 'E') = false := by
    rintro c ⟨⟩
    rcases n.isExponentLetter with h | h <;> rw [h] <;> rfl
  obtain ⟨htake, hdrop⟩ := Text.run_append (p := fun c => c != 'e' && c != 'E') _ _
    (fun c hc => isMantissa (hchars c hc)) hletter
  rw [htext, Decimal.scientific?]
  simp only [htake, hdrop, n.fixedPoint, n.integer?_power]
  rfl

theorem ofText?_text : Decimal.Numeral.ofText? n.text =
    some (.finite false n.digits (n.places + n.exponent)) := by
  obtain ⟨hne, hchars⟩ := Decimal.isNumeralChar_of_fixedPoint? n.fixedPoint
  obtain ⟨c, cs, hcs⟩ := List.exists_cons_of_ne_nil hne
  have hc := hchars c (by rw [hcs]; exact List.mem_cons_self)
  have htext : ∃ rest, n.text.toList = c :: rest := by simp [text, hcs]
  obtain ⟨rest, hrest⟩ := htext
  have hscientific := n.scientific?_text
  rw [hrest] at hscientific
  rw [Decimal.Numeral.ofText?, hrest, Decimal.ofChars?_cons hc, hscientific]
  rfl

/-- The name of the symbol that is read after the mantissa. -/
def name : String := String.singleton n.letter ++ if n.sign.isNone then n.power else ""

section

variable {α : Type} [Arithmetic α]

/-- The number before the letter. -/
def factor : α := Arithmetic.decimal n.digits n.places

/-- The number after the sign. -/
def summand : α := Arithmetic.decimal (Decimal.digitsValue n.power.toList) 0

/-- The expression that is read instead of the numeral. -/
def expr : Expr α :=
  let product := .binary .mul (.number n.factor) (.symbol n.name)
  match n.sign with
  | none => product
  | some op => .binary op product (.number n.summand)

open Token

theorem isAlpha_letter : n.letter.isAlpha = true := by
  rcases n.isExponentLetter with h | h <;> rw [h] <;> rfl

theorem scans_mantissa (rest : List Char) :
    Scans n.mantissa [number (α := α) n.factor] (n.letter :: rest) := by
  obtain ⟨hne, hchars⟩ := Decimal.isNumeralChar_of_fixedPoint? n.fixedPoint
  have hletter : ∀ c ∈ (n.letter :: rest).head?, isNumeralChar c = false := by
    rintro c ⟨⟩
    rcases n.isExponentLetter with h | h <;> rw [h] <;> rfl
  have hdigits := scans_digits (α := α) hne hchars hletter
  rwa [ofDigits, n.fixedPoint] at hdigits

theorem scans_power : Scans n.power [number (α := α) n.summand] [] := by
  have hchars : ∀ c ∈ n.power.toList, isNumeralChar c = true := fun c hc => by
    rw [isNumeralChar, n.power_isDigit c hc, Bool.true_or]
  have hend : ∀ c ∈ ([] : List Char).head?, isNumeralChar c = false := by simp
  have hdigits := scans_digits (α := α) n.power_ne_nil hchars hend
  rwa [ofDigits, Decimal.fixedPoint?_digits n.power_ne_nil n.power_isDigit] at hdigits

theorem isProduct_factor : Expr.IsProduct (α := α) [.number n.factor, .symbol n.name]
    (.binary .mul (.number n.factor) (.symbol n.name)) :=
  (Expr.isOperand_number _).isPower.juxtaposed rfl (Expr.isOperand_symbol _).isPower

theorem scans_sign {op : Op} (hop : op = .add ∨ op = .sub) (rest : List Char) :
    Scans (signText (some op)) [.ofOp (α := α) op] rest ∧
      Text.Breaks ((signText (some op)).toList ++ rest) := by
  rcases hop with rfl | rfl
  · exact ⟨scans_mark rfl rfl (Or.inl (by decide)), Text.breaks_cons (by decide +kernel) rest⟩
  · exact ⟨scans_mark rfl rfl (Or.inl (by decide)), Text.breaks_cons (by decide +kernel) rest⟩

theorem parse_text : Expr.parse n.text = .ok (n.expr (α := α)) := by
  cases hsign : n.sign with
  | none =>
    have hname : n.name = String.singleton n.letter ++ n.power := by rw [name, hsign]; rfl
    have hscan : Scans (α := α) n.text [.number n.factor, .symbol n.name] [] := by
      have hsymbol : n.name.toList = n.letter :: n.power.toList := by simp [hname]
      have htext : n.text = n.mantissa ++ n.name := by
        rw [text, hsign, hname]
        rfl
      have hend : Text.Breaks [] := by simp [Text.Breaks]
      have hletter : Scans (α := α) n.name [.symbol n.name] [] :=
        scans_symbol hsymbol n.isAlpha_letter n.power_isDigit hend
      have hmantissa : Scans (α := α) n.mantissa [.number n.factor] (n.name.toList ++ []) := by
        rw [List.append_nil, hsymbol]
        exact n.scans_mantissa n.power.toList
      rw [htext]
      exact hmantissa.append hletter
    rw [Expr.parse, ofText_eq hscan, expr, hsign]
    exact n.isProduct_factor.isSum.ofTokens
  | some op =>
    have hop := n.isSign op hsign
    have hname : n.name = String.singleton n.letter := by simp [name, hsign]
    have hsymbol : n.name.toList = n.letter :: [] := by simp [hname]
    obtain ⟨hscanned, hbreaks⟩ := scans_sign (α := α) hop n.power.toList
    have hscan : Scans (α := α) n.text
        [.number n.factor, .symbol n.name, .ofOp op, .number n.summand] [] := by
      have hsign' : Scans (α := α) (signText (some op)) [.ofOp op] (n.power.toList ++ []) := by
        rwa [List.append_nil]
      have hpower := hsign'.append n.scans_power
      have hrest : (signText (some op) ++ n.power).toList ++ [] =
          (signText (some op)).toList ++ n.power.toList := by simp
      have hletter : Scans (α := α) n.name [.symbol n.name]
          ((signText (some op) ++ n.power).toList ++ []) := by
        rw [hrest]
        exact scans_symbol hsymbol n.isAlpha_letter (List.forall_mem_nil _) hbreaks
      have hmantissa : Scans (α := α) n.mantissa [.number n.factor]
          ((n.name ++ (signText (some op) ++ n.power)).toList ++ []) := by
        rw [String.toList_append, hsymbol]
        exact n.scans_mantissa _
      have htext : n.text = n.mantissa ++ (n.name ++ (signText (some op) ++ n.power)) := by
        rw [text, hsign, hname]
      rw [htext]
      exact hmantissa.append (hletter.append hpower)
    have hsum := n.isProduct_factor.binary (α := α) hop
      (Expr.isOperand_number n.summand).isPower.isProduct
    rw [Expr.parse, ofText_eq hscan, expr, hsign]
    exact hsum.ofTokens

end

end ExponentNumeral

namespace Monomial

variable {α : Type} [Arithmetic α]

/-- A term that adds to the offset of a forcing. -/
def IsOffset (m : Monomial α) : Prop :=
  m.symbols = [] ∧ (m.rate != 0) = false ∧ m.timePower = 0 ∧ m.oscillation = none

end Monomial

namespace Forcing

variable {α : Type} [Arithmetic α] {m : Monomial α} {ts : List (Monomial α)}

theorem addTerm_offset (F : Harmonic α) (h : m.IsOffset) :
    addTerm F m = .ok (F.addOffset m.coefficient) := by
  obtain ⟨hsymbols, hrate, hpower, hosc⟩ := h
  simp [addTerm, hsymbols, hrate, hpower, hosc, Harmonic.addOffset]

theorem foldlM_addTerm_offsets (h : ∀ m ∈ ts, m.IsOffset) (F : Harmonic α) :
    ts.foldlM addTerm F =
      .ok { F with offset := (ts.map (·.coefficient)).foldl (· + ·) F.offset } := by
  induction ts generalizing F with
  | nil => rfl
  | cons m ts ih =>
    obtain ⟨hm, hts⟩ := List.forall_mem_cons.mp h
    rw [List.foldlM_cons, addTerm_offset F hm]
    exact ih hts _

/-- A forcing that stays at a sum of numbers. -/
def still (offsets : List α) : Harmonic α :=
  { Harmonic.zero with offset := offsets.foldl (· + ·) 0 }

theorem ofTerms_offsets (h : ∀ m ∈ ts, m.IsOffset) :
    ofTerms ts = .ok (still (ts.map (·.coefficient))) := foldlM_addTerm_offsets h .zero

theorem ofTerms_unresolved (h : m.symbols ≠ []) :
    ofTerms (m :: ts) = .error (.unresolved m.symbols) := by
  have hsymbols : m.symbols.isEmpty = false := by simpa using h
  have hterm : addTerm Harmonic.zero m = .error (.unresolved m.symbols) := by
    simp [addTerm, hsymbols]
  rw [ofTerms, List.foldlM_cons, hterm]
  rfl

end Forcing

namespace ExponentNumeral

open Double Monomial Oscillator.Expr

variable {f : Elementary} (n : ExponentNumeral)

/-- The number `y`, unless `x` is zero. -/
def unlessZero {β : Type} (x : Double f) (y : β) : List β := if (x != 0) = true then [y] else []

theorem expand_number_eq (x : Double f) :
    (number x).expand = .ok (unlessZero x (constant x)) := by
  rw [expand_number, unlessZero]
  cases hx : x != 0 <;> simp [nonzero, constant, hx]

/-- The product of a number and a term. -/
def scaled (x : Double f) (b : Monomial (Double f)) : Monomial (Double f) :=
  ⟨x * b.coefficient, 0 + b.rate, Arithmetic.storePower (Double f) (0 + b.timePower),
    b.oscillation, Names.union [] b.symbols⟩

theorem expand_scaled {x : Double f} {s : String} {b : Monomial (Double f)}
    (hb : (symbol s).expand = .ok [b]) (hx : (x != 0) = true → (x * b.coefficient != 0) = true) :
    (binary .mul (number x) (symbol s)).expand = .ok (unlessZero x (scaled x b)) := by
  refine expand_mul.mpr ⟨unlessZero x (constant x), [b], unlessZero x (scaled x b),
    expand_number_eq x, hb, ?_, ?_⟩
  · rw [unlessZero, unlessZero]
    split
    · have hmul : (constant x).mul b = .ok (scaled x b) := mul_eq_ok.mpr ⟨Or.inl rfl, rfl⟩
      simp [products, hmul]
    · rfl
  · rw [nonzero_eq_self, unlessZero]
    split
    case isTrue h => exact List.forall_mem_singleton.mpr (hx h)
    case isFalse => exact List.forall_mem_nil _

theorem coefficient_unlessZero (x : Double f) (m : Monomial (Double f)) :
    (unlessZero x m).map (·.coefficient) = unlessZero x m.coefficient := by
  unfold unlessZero
  split <;> rfl

theorem isOffset_unlessZero {x : Double f} {m : Monomial (Double f)} (hm : m.IsOffset) :
    ∀ m' ∈ unlessZero x m, m'.IsOffset := by
  unfold unlessZero
  split
  · exact List.forall_mem_singleton.mpr hm
  · nofun

theorem zero_bne_zero : ((0 : Double f) != 0) = false := by
  rw [← Bool.not_eq_true, bne_zero_iff, unpack_zero]
  exact fun h => h _ rfl

theorem isOffset_constant (x : Double f) : (constant x).IsOffset :=
  ⟨rfl, zero_bne_zero, rfl, rfl⟩

theorem zero_add_zero_bne_zero : ((0 + 0 : Double f) != 0) = false := by
  change (Float.ofScientific 0 false 0 + Float.ofScientific 0 false 0 != Float.ofScientific 0 false 0) = _
  decide +kernel

theorem isOffset_scaled (x y : Double f) : (scaled x (constant y)).IsOffset :=
  ⟨rfl, zero_add_zero_bne_zero, rfl, rfl⟩

theorem one_bne_zero : ((1 : Double f) != 0) = true := by
  change (Float.ofScientific 1 false 0 != Float.ofScientific 0 false 0) = _
  decide +kernel

theorem euler_bne_zero : ((Arithmetic.euler : Double f) != 0) = true := by
  change ((2.718281828459045 : Float) != Float.ofScientific 0 false 0) = _
  decide +kernel

theorem expand_euler :
    (symbol eulerName : Expr (Double f)).expand = .ok [.constant Arithmetic.euler] := by
  rw [expand_symbol, if_neg (by decide), if_pos rfl,
    nonzero_eq_self.mpr (List.forall_mem_singleton.mpr euler_bne_zero)]

theorem expand_free {s : String} (ht : s ≠ timeName) (he : s ≠ eulerName) :
    (symbol s : Expr (Double f)).expand = .ok [.symbol s] := by
  rw [expand_symbol, if_neg ht, if_neg he,
    nonzero_eq_self.mpr (List.forall_mem_singleton.mpr one_bne_zero)]

/-- The number after the sign with that sign, unless it is zero. -/
def signed (op : Op) : List (Double f) :=
  unlessZero (n.summand : Double f) (if op = .sub then -n.summand else n.summand)

/-- The letter is read as a symbol, which no forcing may have; only a factor of zero makes it vanish, and
leaves the offsets after it. -/
def symbolic (offsets : List (Double f)) : Except (ForcingError (Double f)) (Harmonic (Double f)) :=
  if ((n.factor : Double f) != 0) = true then .error (.unresolved [n.name])
  else .ok (Forcing.still offsets)

/-- The forcing that is read instead of the numeral: behind `e` and a sign there is a summand, and otherwise
the letter is part of a symbol. -/
def reading : Except (ForcingError (Double f)) (Harmonic (Double f)) :=
  match n.sign with
  | none => n.symbolic []
  | some op =>
    if n.letter = 'e' then
      .ok (Forcing.still (unlessZero (n.factor : Double f) (n.factor * Arithmetic.euler) ++ n.signed op))
    else n.symbolic (n.signed op)

variable {n}

theorem toList_name : n.name.toList = n.letter :: if n.sign.isNone then n.power.toList else [] := by
  rw [name, String.toList_append, apply_ite String.toList]
  simp

theorem name_ne_timeName : n.name ≠ timeName := by
  intro h
  have hletter := congrArg (fun s => s.toList.head?) h
  rw [toList_name] at hletter
  rcases n.isExponentLetter with h | h <;> rw [h] at hletter <;> cases hletter

theorem name_ne_eulerName (h : n.sign = none ∨ n.letter ≠ 'e') : n.name ≠ eulerName := by
  intro hname
  have hlist := congrArg String.toList hname
  rw [toList_name] at hlist
  obtain ⟨hletter, htail⟩ := List.cons.inj hlist
  rcases h with h | h
  · rw [h] at htail
    exact n.power_ne_nil htail
  · exact h hletter

/-! The terms of the expression are made from its numbers. -/

theorem expand_sign {op : Op} (hop : op = .add ∨ op = .sub) {e : Expr (Double f)}
    {ts : List (Monomial (Double f))} (h : e.expand = .ok ts) :
    (binary op e (number n.summand)).expand = .ok (ts ++ (n.signed op).map constant) := by
  rcases hop with rfl | rfl
  · refine expand_add.mpr ⟨ts, _, h, expand_number_eq _, ?_⟩
    unfold signed unlessZero
    split <;> rfl
  · refine expand_sub.mpr ⟨ts, _, h, expand_number_eq _, ?_⟩
    unfold signed unlessZero
    split <;> rfl

theorem isOffset_constants (xs : List (Double f)) : ∀ m ∈ xs.map constant, m.IsOffset :=
  List.forall_mem_map.mpr fun x _ => isOffset_constant x

theorem coefficient_constants (xs : List (Double f)) :
    (xs.map constant).map (·.coefficient) = xs := by
  rw [List.map_map]
  exact List.map_id xs

theorem ofTerms_constants (xs : List (Double f)) :
    Forcing.ofTerms (xs.map constant) = .ok (Forcing.still xs) := by
  rw [Forcing.ofTerms_offsets (isOffset_constants xs), coefficient_constants]

theorem ofTerms_euler (xs : List (Double f)) :
    Forcing.ofTerms (unlessZero (n.factor : Double f) (scaled n.factor (constant Arithmetic.euler)) ++
      xs.map constant) =
        .ok (Forcing.still (unlessZero (n.factor : Double f) (n.factor * Arithmetic.euler) ++ xs)) := by
  have hterms := List.forall_mem_append.mpr
    ⟨isOffset_unlessZero (x := (n.factor : Double f)) (isOffset_scaled n.factor Arithmetic.euler),
      isOffset_constants xs⟩
  rw [Forcing.ofTerms_offsets hterms, List.map_append, coefficient_unlessZero,
    coefficient_constants]
  rfl

theorem ofTerms_symbolic (xs : List (Double f)) :
    Forcing.ofTerms (unlessZero (n.factor : Double f) (scaled n.factor (.symbol n.name)) ++
      xs.map constant) = n.symbolic xs := by
  unfold symbolic unlessZero
  split
  · exact Forcing.ofTerms_unresolved (List.cons_ne_nil n.name [])
  · exact ofTerms_constants xs

theorem parse_eq_reading (f : Elementary) (n : ExponentNumeral) :
    Forcing.parse n.text = n.reading (f := f) := by
  cases hsign : n.sign with
  | none =>
    have hexpand := expand_scaled (x := (n.factor : Double f))
      (expand_free name_ne_timeName (name_ne_eulerName (Or.inl hsign))) mul_one_bne_zero
    have hparse := n.parse_text (α := Double f)
    rw [expr, hsign] at hparse
    rw [Forcing.parse_of_expand hparse hexpand, reading, hsign, ← ofTerms_symbolic, List.map_nil,
      List.append_nil]
  | some op =>
    have hop := n.isSign op hsign
    have hparse := n.parse_text (α := Double f)
    rw [expr, hsign] at hparse
    by_cases hletter : n.letter = 'e'
    · have hname : n.name = eulerName := by simp [name, hsign, hletter, eulerName]
      have hscaled := expand_scaled (x := (n.factor : Double f)) expand_euler mul_euler_bne_zero
      rw [← hname] at hscaled
      rw [Forcing.parse_of_expand hparse (expand_sign hop hscaled), reading, hsign, ofTerms_euler]
      exact (if_pos hletter).symm
    · have hscaled := expand_scaled (x := (n.factor : Double f))
        (expand_free name_ne_timeName (name_ne_eulerName (Or.inr hletter))) mul_one_bne_zero
      rw [Forcing.parse_of_expand hparse (expand_sign hop hscaled), reading, hsign,
        ofTerms_symbolic]
      exact (if_neg hletter).symm

/-- A numeral in exponent notation has a value as a field, but in a formula it is a multiple of a symbol, or
of Euler's number with a summand. -/
theorem readers_differ (f : Elementary) (n : ExponentNumeral) :
    Decimal.Numeral.ofText? n.text = some (.finite false n.digits (n.places + n.exponent)) ∧
      Forcing.parse n.text = n.reading (f := f) :=
  ⟨n.ofText?_text, parse_eq_reading f n⟩

def thousand : ExponentNumeral where
  mantissa := "1"
  digits := 1
  places := 0
  fixedPoint := by decide
  letter := 'e'
  isExponentLetter := Or.inl rfl
  sign := none
  isSign := nofun
  power := "3"
  power_ne_nil := List.cons_ne_nil '3' []
  power_isDigit := List.forall_mem_singleton.mpr rfl

theorem not_parse_value : ¬∀ (n : ExponentNumeral) (v : Decimal.Numeral),
    Decimal.Numeral.ofText? n.text = some v →
      Arithmetic.isFinite (v.value : Double .native) = true →
        Forcing.parse n.text = .ok ⟨(v.value : Double .native), 0, 0, 0⟩ := by
  intro h
  have hvalue : Arithmetic.isFinite
      ((Decimal.Numeral.finite false thousand.digits (thousand.places + thousand.exponent)).value :
        Double .native) = true := by decide +kernel
  have hparse := h thousand _ thousand.ofText?_text hvalue
  have hfactor : ((thousand.factor : Double .native) != 0) = true := by decide +kernel
  have hreading : thousand.symbolic (f := .native) [] = .error (.unresolved [thousand.name]) :=
    if_pos hfactor
  change thousand.reading (f := .native) = _ at hreading
  rw [parse_eq_reading, hreading] at hparse
  cases hparse

end ExponentNumeral

end Oscillator
