import Mathlib.Data.List.TakeWhile
import Oscillator.Expr.Token

/-! # Kinds of characters

No character is of two kinds, and each kind has its rule of scanning: blanks are passed over, numerals,
commands and words are taken as long as they last, and an underscore takes an index.
-/
namespace Oscillator

namespace Text

variable {c : Char}

theorem isUpper_iff : c.isUpper = true ↔ 65 ≤ c.toNat ∧ c.toNat ≤ 90 := decide_eq_true_iff

theorem isLower_iff : c.isLower = true ↔ 97 ≤ c.toNat ∧ c.toNat ≤ 122 :=
  Bool.and_eq_true_iff.trans (and_congr decide_eq_true_iff decide_eq_true_iff)

theorem isAlpha_iff : c.isAlpha = true ↔
    (65 ≤ c.toNat ∧ c.toNat ≤ 90) ∨ (97 ≤ c.toNat ∧ c.toNat ≤ 122) :=
  Bool.or_eq_true_iff.trans (or_congr isUpper_iff isLower_iff)

theorem isDigit_iff : c.isDigit = true ↔ 48 ≤ c.toNat ∧ c.toNat ≤ 57 :=
  Bool.and_eq_true_iff.trans (and_congr decide_eq_true_iff decide_eq_true_iff)

theorem isNumeralChar_iff :
    Token.isNumeralChar c = true ↔ (48 ≤ c.toNat ∧ c.toNat ≤ 57) ∨ c.toNat = 46 := by
  rw [Token.isNumeralChar, Bool.or_eq_true, isDigit_iff, beq_iff_eq, ← Char.toNat_inj]
  rfl

theorem isLetter_of_isAlpha (h : c.isAlpha = true) : isLetter c = true := by
  have := isAlpha_iff.mp h
  rw [isLetter, if_pos (by omega), h]

theorem isLetter_eq_false_of_isDigit (h : c.isDigit = true) : isLetter c = false := by
  have := isDigit_iff.mp h
  rw [isLetter, if_pos (by omega), ← Bool.not_eq_true, isAlpha_iff]
  omega

/-- Of ASCII only the space and what stands before it are blank. -/
theorem isBlank_eq_false (h : 0x20 < c.toNat) (h' : c.toNat < 0x80) : isBlank c = false := by
  simp [isBlank]
  omega

def blankCodes : List ℕ :=
  List.range' 9 5 ++ [0x20, 0x85, 0xa0, 0x1680] ++ List.range' 0x2000 11 ++
    [0x2028, 0x2029, 0x202f, 0x205f, 0x3000]

theorem toNat_mem_blankCodes (h : isBlank c = true) : c.toNat ∈ blankCodes := by
  simp only [isBlank, Bool.or_eq_true, Bool.and_eq_true, decide_eq_true_eq, beq_iff_eq] at h
  simp only [blankCodes, List.mem_append, List.mem_range'_1, List.mem_cons, List.not_mem_nil, or_false]
  omega

theorem isLetterOrDigit_of_blankCodes :
    ∀ n ∈ blankCodes, isLetterOrDigit (Char.ofNat n) = false := by
  decide +kernel

theorem isLetterOrDigit_eq_false_of_isBlank (h : isBlank c = true) : isLetterOrDigit c = false := by
  have hcode := isLetterOrDigit_of_blankCodes _ (toNat_mem_blankCodes h)
  rwa [Char.ofNat_toNat] at hcode

theorem isLetterOrDigit_of_isLetter (h : isLetter c = true) : isLetterOrDigit c = true := by
  rw [isLetter] at h
  rw [isLetterOrDigit]
  split at h
  case isTrue hascii => rw [if_pos hascii, Char.isAlphanum, h, Bool.true_or]
  case isFalse hascii => rw [if_neg hascii, h, Bool.true_or]

theorem isBlank_eq_false_of_isLetter (h : isLetter c = true) : isBlank c = false := by
  rw [← Bool.not_eq_true]
  intro hblank
  have hletter := isLetterOrDigit_of_isLetter h
  rw [isLetterOrDigit_eq_false_of_isBlank hblank] at hletter
  cases hletter

theorem isLetter_eq_false_of_isBlank (h : isBlank c = true) : isLetter c = false := by
  cases hletter : isLetter c with
  | false => rfl
  | true => exact absurd (isBlank_eq_false_of_isLetter hletter) (by simp [h])

theorem isBlank_eq_false_of_isNumeralChar (h : Token.isNumeralChar c = true) : isBlank c = false := by
  have hcode := isNumeralChar_iff.mp h
  exact isBlank_eq_false (by omega) (by omega)

theorem isNumeralChar_eq_false_of_isBlank (h : isBlank c = true) : Token.isNumeralChar c = false := by
  cases hnumeral : Token.isNumeralChar c with
  | false => rfl
  | true => exact absurd (isBlank_eq_false_of_isNumeralChar hnumeral) (by simp [h])

theorem isNumeralChar_eq_false_of_isLetter (h : isLetter c = true) : Token.isNumeralChar c = false := by
  cases hnumeral : Token.isNumeralChar c with
  | false => rfl
  | true =>
    have hcode := isNumeralChar_iff.mp hnumeral
    rw [isLetter, if_pos (by omega), isAlpha_iff] at h
    omega

end Text

namespace Token

open Text

variable {α : Type} [Arithmetic α] {c : Char} {t : Token α}

theorem scan_blank (h : isBlank c = true) (read : List (Token α)) (cs : List Char) :
    scan read (c :: cs) = scan read cs := by
  rw [scan, if_pos h]

theorem scan_numeral (h : isNumeralChar c = true) (read : List (Token α)) (cs : List Char) :
    scan read (c :: cs) = scan (ofDigits (c :: cs.takeWhile isNumeralChar) :: read)
      (cs.dropWhile isNumeralChar) := by
  rw [scan, if_neg (by simp [isBlank_eq_false_of_isNumeralChar h]), if_pos h]

theorem scan_escape {cs : List Char} (h : cs.takeWhile Char.isAlpha = []) (read : List (Token α)) :
    scan read ('\\' :: cs) = scan read (cs.drop 1) := by
  rw [scan, if_neg (by decide), if_neg (by decide), if_pos rfl]
  exact if_pos (List.isEmpty_iff.mpr h)

theorem scan_command {cs : List Char} (h : cs.takeWhile Char.isAlpha ≠ []) (read : List (Token α)) :
    scan read ('\\' :: cs) =
      scan ((ofCommand? (String.ofList (cs.takeWhile Char.isAlpha))).toList ++ read)
        (cs.dropWhile Char.isAlpha) := by
  rw [scan, if_neg (by decide), if_neg (by decide), if_pos rfl]
  exact if_neg (by simpa [List.isEmpty_iff] using h)

theorem scan_word (h : isLetter c = true) {cs : List Char}
    (ht : ofWord? (c :: cs.takeWhile isLetter) = some t) (read : List (Token α)) :
    scan read (c :: cs) = scan (t :: read) (cs.dropWhile isLetter) := by
  have hslash : c ≠ '\\' := by
    rintro rfl
    cases h
  rw [scan]
  simp only [isBlank_eq_false_of_isLetter h, isNumeralChar_eq_false_of_isLetter h, hslash, h, ht,
    Bool.false_eq_true, if_false, if_true]

theorem scan_symbols (h : isLetter c = true) {cs : List Char}
    (hw : ofWord? (α := α) (c :: cs.takeWhile isLetter) = none) (read : List (Token α)) :
    scan read (c :: cs) =
      scan (index ((cs.dropWhile isLetter).takeWhile Char.isDigit)
        (letters (c :: cs.takeWhile isLetter) ++ read))
        ((cs.dropWhile isLetter).dropWhile Char.isDigit) := by
  have hslash : c ≠ '\\' := by
    rintro rfl
    cases h
  rw [scan]
  simp only [isBlank_eq_false_of_isLetter h, isNumeralChar_eq_false_of_isLetter h, hslash, h, hw,
    Bool.false_eq_true, if_false, if_true]

/-- Without a brace an index is at most one character. -/
theorem splitSubscript_cons {x : Char} (hx : x ≠ '{') (cs : List Char) :
    splitSubscript (x :: cs) = if isLetterOrDigit x then ([x], cs) else ([], x :: cs) := by
  rw [splitSubscript]
  exact hx

theorem scan_index (read : List (Token α)) (cs : List Char) :
    scan read ('_' :: cs) = scan (index (splitSubscript cs).1 read) (splitSubscript cs).2 := by
  rw [scan, if_neg (by decide), if_neg (by decide), if_neg (by decide), if_neg (by decide), if_pos rfl]

theorem scan_power (read : List (Token α)) (cs : List Char) :
    scan read ('*' :: '*' :: cs) = scan (caret :: read) cs := by
  rw [scan, if_neg (by decide), if_neg (by decide), if_neg (by decide), if_neg (by decide),
    if_neg (by decide), if_pos ⟨rfl, rfl⟩, List.drop_one, List.tail_cons]

/-- A character that is no part of anything longer. -/
structure IsSingle (c : Char) : Prop where
  blank : isBlank c = false
  numeral : isNumeralChar c = false
  slash : c ≠ '\\'
  letter : isLetter c = false
  underscore : c ≠ '_'

instance : DecidablePred IsSingle := fun _ =>
  decidable_of_iff (_ ∧ _ ∧ _ ∧ _ ∧ _)
    ⟨fun h => ⟨h.1, h.2.1, h.2.2.1, h.2.2.2.1, h.2.2.2.2⟩, fun h => ⟨h.1, h.2, h.3, h.4, h.5⟩⟩

theorem kind_cases (c : Char) : isBlank c = true ∨ isNumeralChar c = true ∨ c = '\\' ∨ isLetter c = true ∨
    c = '_' ∨ IsSingle c := by
  cases hblank : isBlank c with
  | true => exact .inl rfl
  | false =>
    cases hnumeral : isNumeralChar c with
    | true => exact .inr (.inl rfl)
    | false =>
      cases hletter : isLetter c with
      | true => exact .inr (.inr (.inr (.inl rfl)))
      | false =>
        by_cases hslash : c = '\\'
        · exact .inr (.inr (.inl hslash))
        · by_cases hunder : c = '_'
          · exact .inr (.inr (.inr (.inr (.inl hunder))))
          · exact .inr (.inr (.inr (.inr (.inr ⟨hblank, hnumeral, hslash, hletter, hunder⟩))))

theorem scan_single (h : IsSingle c) {cs : List Char} (hpower : c = '*' → '*' ∉ cs.head?)
    (read : List (Token α)) : scan read (c :: cs) = scan ((ofMark? c).toList ++ read) cs := by
  have hc : ¬(c = '*' ∧ cs.head? = some '*') := fun hboth => hpower hboth.1 hboth.2
  rw [scan]
  simp only [h.blank, h.numeral, h.slash, h.letter, h.underscore, hc, Bool.false_eq_true, if_false]

end Token

end Oscillator
