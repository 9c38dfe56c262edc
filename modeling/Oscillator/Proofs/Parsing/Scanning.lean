import Oscillator.Proofs.Parsing.Kinds

/-! # Scanning piece by piece

A text is scanned as its pieces are, one after the other, when each is a piece before the characters
that really follow it; so no run of letters or digits is cut in two. One rule for each kind of
token says which characters it is scanned from.
-/
namespace Oscillator

namespace Text

variable {c : Char} {cs : List Char}

/-- A run ends where the characters after it begin with none of its kind. -/
theorem run_append {p : Char → Bool} (run rest : List Char) (h : ∀ c ∈ run, p c = true)
    (hr : ∀ c ∈ rest.head?, p c = false) :
    (run ++ rest).takeWhile p = run ∧ (run ++ rest).dropWhile p = rest := by
  rw [List.takeWhile_append_of_pos h, List.dropWhile_append_of_pos h]
  cases rest with
  | nil => simp
  | cons c cs => simp [hr c rfl]

/-- The characters begin with none that extends a run of letters or of digits. -/
def Breaks (cs : List Char) : Prop :=
  ∀ c ∈ cs.head?, isLetter c = false ∧ Token.isNumeralChar c = false

theorem breaks_cons (h : isLetter c = false ∧ Token.isNumeralChar c = false) (cs : List Char) :
    Breaks (c :: cs) := by
  rintro d ⟨⟩
  exact h

theorem Breaks.isAlpha (h : Breaks cs) : ∀ c ∈ cs.head?, c.isAlpha = false := fun c hc => by
  rw [← Bool.not_eq_true]
  exact fun halpha => Bool.false_ne_true ((h c hc).1.symm.trans (isLetter_of_isAlpha halpha))

theorem Breaks.isDigit (h : Breaks cs) : ∀ c ∈ cs.head?, c.isDigit = false := fun c hc =>
  (Bool.or_eq_false_iff.mp (h c hc).2).1

end Text

namespace Decimal

variable {cs : List Char}

theorem fixedPoint?_digits (hne : cs ≠ []) (hd : ∀ c ∈ cs, c.isDigit = true) :
    fixedPoint? cs = some (digitsValue cs, 0) := by
  have hrun := Text.run_append cs [] hd nofun
  rw [List.append_nil] at hrun
  rw [fixedPoint?, hrun.1, hrun.2]
  exact if_neg (by simpa using hne)

theorem isDigit_of_mem_toDigits {n : ℕ} {c : Char} (hc : c ∈ Nat.toDigits 10 n) : c.isDigit = true :=
  Nat.isDigit_of_mem_toDigits (by decide) (by decide) hc

theorem digitsValue_toDigits (n : ℕ) : digitsValue (Nat.toDigits 10 n) = n := Nat.ofDigitChars_ten_toDigits

theorem fixedPoint?_toDigits (n : ℕ) : fixedPoint? (Nat.toDigits 10 n) = some (n, 0) := by
  rw [fixedPoint?_digits Nat.toDigits_ne_nil fun c hc => isDigit_of_mem_toDigits hc, digitsValue_toDigits]

end Decimal

namespace Token

variable {α : Type} [Arithmetic α] {s s' : String} {ts ts' : List (Token α)} {rest : List Char}

/-- Before these characters, the text adds these tokens to those read so far. -/
def Scans (s : String) (ts : List (Token α)) (rest : List Char) : Prop :=
  ∀ read, scan read (s.toList ++ rest) = scan (ts.reverse ++ read) rest

theorem ofText_eq (h : Scans s ts []) : ofText s = ts := by
  have hs := h []
  rw [List.append_nil, List.append_nil] at hs
  rw [ofText, hs, scan, List.reverse_reverse]

theorem Scans.append (h : Scans s ts (s'.toList ++ rest)) (h' : Scans s' ts' rest) :
    Scans (s ++ s') (ts ++ ts') rest := by
  intro read
  rw [String.toList_append, List.append_assoc, h, h', List.reverse_append, List.append_assoc]

theorem scans_blank (rest : List Char) : Scans " " ([] : List (Token α)) rest := by
  intro read
  rw [show " ".toList = [' '] from rfl, List.singleton_append, scan_blank (by decide)]
  rfl

omit [Arithmetic α] in
/-- A mark belongs to no other kind of token. -/
theorem isSingle_of_ofMark? {c : Char} {t : Token α} (h : ofMark? c = some t) : IsSingle c := by
  unfold ofMark? at h
  split at h
  all_goals first | decide +kernel | cases h

theorem scans_mark {c : Char} {t : Token α} (hs : s.toList = [c]) (hc : ofMark? c = some t)
    (hr : c ≠ '*' ∨ '*' ∉ rest.head?) : Scans s [t] rest := by
  intro read
  rw [hs, List.singleton_append, scan_single (isSingle_of_ofMark? hc) hr.neg_resolve_left, hc]
  rfl

theorem scans_digits (hne : s.toList ≠ []) (hs : ∀ c ∈ s.toList, isNumeralChar c = true)
    (hr : ∀ c ∈ rest.head?, isNumeralChar c = false) : Scans s [ofDigits (α := α) s.toList] rest := by
  intro read
  obtain ⟨c, cs, hcs⟩ := List.exists_cons_of_ne_nil hne
  rw [hcs] at hs ⊢
  obtain ⟨hc, hrun⟩ := List.forall_mem_cons.mp hs
  obtain ⟨htake, hdrop⟩ := Text.run_append cs rest hrun hr
  rw [List.cons_append, scan_numeral hc, htake, hdrop]
  rfl

/-- The digits of a number are scanned as the number. -/
theorem scans_number (n : Nat) (hr : Text.Breaks rest) :
    Scans (toString n) [number (n : α)] rest := by
  have hdigits : (toString n).toList = Nat.toDigits 10 n := by simp
  have hnumber : ofDigits (α := α) (toString n).toList = number (n : α) := by
    rw [ofDigits, hdigits, Decimal.fixedPoint?_toDigits]
    rfl
  rw [← hnumber]
  refine scans_digits (by simp [Nat.toDigits_ne_nil]) (fun c hc => ?_) fun c hc => (hr c hc).2
  rw [hdigits] at hc
  rw [isNumeralChar, Decimal.isDigit_of_mem_toDigits hc, Bool.true_or]

/-- A command is scanned as what it stands for, which may be nothing. -/
theorem scans_command {name : String} (hs : s.toList = '\\' :: name.toList)
    (hne : name.toList ≠ []) (halpha : ∀ c ∈ name.toList, c.isAlpha = true)
    (hr : ∀ c ∈ rest.head?, c.isAlpha = false) :
    Scans s (ofCommand? (α := α) name).toList rest := by
  intro read
  obtain ⟨htake, hdrop⟩ := Text.run_append _ _ halpha hr
  rw [hs, List.cons_append, scan_command (by rwa [htake]), htake, hdrop, String.ofList_toList]
  cases ofCommand? (α := α) name <;> rfl

/-- A run of letters that has a meaning of its own is no product of symbols. -/
theorem scans_word {t : Token α} (hword : ofWord? s.toList = some t) (hne : s.toList ≠ [])
    (halpha : ∀ c ∈ s.toList, c.isAlpha = true) (hr : Text.Breaks rest) : Scans s [t] rest := by
  intro read
  obtain ⟨c, cs, hcs⟩ := List.exists_cons_of_ne_nil hne
  rw [hcs] at hword halpha ⊢
  obtain ⟨hc, hrun⟩ := List.forall_mem_cons.mp halpha
  obtain ⟨htake, hdrop⟩ := Text.run_append cs rest (fun d hd => Text.isLetter_of_isAlpha (hrun d hd))
    fun d hd => (hr d hd).1
  rw [List.cons_append, scan_word (Text.isLetter_of_isAlpha hc) (by rwa [htake]), hdrop]
  rfl

omit [Arithmetic α] in
theorem ofName?_letter (c : Char) : Func.ofName? (String.ofList [c]) = none := by
  refine List.find?_eq_none.mpr fun f _ h => ?_
  have hlength := congrArg (·.toList.length) (beq_iff_eq.mp h)
  cases f <;> simp [Func.name] at hlength

/-- A letter and the digits after it are one symbol. -/
theorem scans_symbol {c : Char} {digits : List Char} (hs : s.toList = c :: digits)
    (hc : c.isAlpha = true) (hdigits : ∀ d ∈ digits, d.isDigit = true) (hr : Text.Breaks rest) :
    Scans s [symbol (α := α) s] rest := by
  intro read
  have hletters : ∀ d ∈ (digits ++ rest).head?, Text.isLetter d = false := by
    cases digits with
    | nil => exact fun d hd => (hr d hd).1
    | cons d ds =>
      rintro d ⟨⟩
      exact Text.isLetter_eq_false_of_isDigit (hdigits d List.mem_cons_self)
  obtain ⟨hrun, hafter⟩ := Text.run_append [] (digits ++ rest) nofun hletters
  rw [List.nil_append] at hrun hafter
  obtain ⟨htake, hdrop⟩ := Text.run_append digits rest hdigits hr.isDigit
  have hword : ofWord? (α := α) [c] = none := by
    rw [ofWord?, if_neg (by simp), ofName?_letter, Option.map_none]
  have hname : String.singleton c ++ String.ofList digits = s :=
    String.toList_inj.mp (by simp [hs])
  rw [hs, List.cons_append, scan_symbols (Text.isLetter_of_isAlpha hc) (by rwa [hrun]), hrun, hafter, htake,
    hdrop, ← hname]
  rfl

end Token

end Oscillator
