import Oscillator.Proofs.Parsing.Printing
import Oscillator.Proofs.Parsing.Scanning

/-! # Reading what was printed

Each piece of a printed tree is scanned as its tokens, whatever piece follows; so reading a printed
tree gives the tree back.
-/
namespace Oscillator

namespace Token

variable {α : Type} [Arithmetic α] {s s' : String} {ts ts' : List (Token α)} {rest : List Char}

/-- Scanned as these tokens before all characters that extend no run. -/
def IsScannedAs (s : String) (ts : List (Token α)) : Prop :=
  ∀ rest, Text.Breaks rest → Scans s ts rest

/-! ## What a piece begins with -/

theorem breaks_command (spaced : Bool) (name : String) (rest : List Char) :
    Text.Breaks ((Style.command spaced name).toList ++ rest) := by
  rw [Style.command, String.append_assoc, String.toList_append, List.append_assoc]
  exact Text.breaks_cons (c := '\\') (by decide) _

theorem head_braces (s : String) (rest : List Char) :
    ∀ c ∈ ((Style.braces s).toList ++ rest).head?, c.isAlpha = false := by
  rw [Style.braces, String.append_assoc, String.toList_append, List.append_assoc]
  rintro c ⟨⟩
  decide

theorem head_operand (style : Style) (s : String) (rest : List Char) :
    ∀ c ∈ ((style.operand s).toList ++ rest).head?, c = '(' ∨ c = '\\' := by
  cases style with
  | plain =>
    rw [Style.operand, String.append_assoc, String.toList_append, List.append_assoc]
    rintro c ⟨⟩
    exact .inl rfl
  | rendered spaced =>
    simp only [Style.operand, Style.command, String.append_assoc]
    rw [String.toList_append, List.append_assoc]
    rintro c ⟨⟩
    exact .inr rfl

/-! ## Names -/

theorem ofWord?_name (f : Func) : ofWord? (α := α) f.name.toList = some (func f) := by
  cases f <;> rfl

theorem ofCommand?_name (f : Func) : ofCommand? (α := α) f.name = some (func f) := by
  cases f <;> rfl

theorem isWord_name (f : Func) : isWord f.name = true := by
  cases f <;> rfl

theorem isWord_iff : isWord s = true ↔ s.toList ≠ [] ∧ ∀ c ∈ s.toList, c.isAlpha = true := by
  simp [isWord]

theorem ofCommand?_unknown {name : String} (h : name ∉ knownCommands) :
    ofCommand? (α := α) name = some (command name) := by
  simp only [knownCommands, List.mem_append, not_or] at h
  obtain ⟨⟨hword, hfunc⟩, hlayout⟩ := h
  have hname : Func.ofName? name = none := by
    refine List.find?_eq_none.mpr fun f hf heq => hfunc ?_
    rw [← beq_iff_eq.mp heq]
    exact List.mem_map_of_mem hf
  simp only [List.mem_cons, List.not_mem_nil, or_false, not_or] at hword
  rw [ofCommand?, if_neg (by simp [hword]), if_neg (by simp [hword]), if_neg hword.2.2.2.2.2,
    hname, if_neg hlayout]

theorem scans_symbolName {name : String} (h : isSymbolName name) (hr : Text.Breaks rest) :
    Scans name [symbol (α := α) name] rest := by
  unfold isSymbolName at h
  split at h
  case h_1 => cases h
  case h_2 c digits hname =>
    simp only [Bool.and_eq_true, List.all_eq_true] at h
    exact scans_symbol hname h.1 h.2 hr

theorem scans_styleCommand (spaced : Bool) (name : String) {t : Option (Token α)}
    (ht : ofCommand? name = t) (hname : isWord name = true)
    (hr : ∀ c ∈ rest.head?, c.isAlpha = false) :
    Scans (Style.command spaced name) t.toList rest := by
  subst ht
  obtain ⟨hne, halpha⟩ := isWord_iff.mp hname
  cases spaced with
  | true =>
    have hcommand : Scans ("\\" ++ name) (ofCommand? (α := α) name).toList (" ".toList ++ rest) :=
      scans_command (by simp) hne halpha (by rintro c ⟨⟩; rfl)
    have hspaced := hcommand.append (scans_blank rest)
    rwa [List.append_nil] at hspaced
  | false => exact scans_command (by simp [Style.command]) hne halpha hr

theorem scans_unknownCommand {name : String} (h : isUnknownCommand name)
    (hr : Text.Breaks rest) : Scans (Style.command true name) [command (α := α) name] rest := by
  simp only [isUnknownCommand, Bool.and_eq_true, Bool.not_eq_true', List.contains_eq_mem,
    decide_eq_false_iff_not] at h
  exact scans_styleCommand true name (ofCommand?_unknown h.2) h.1 hr.isAlpha

/-! ## Pieces put together -/

theorem IsScannedAs.braces (h : IsScannedAs s ts) (rest : List Char) :
    Scans (Style.braces s) (bracketed .brace ts) rest := by
  have hinner := h ("\x7d".toList ++ rest) (Text.breaks_cons (c := '\x7d') (by decide) _)
  have hopening : Scans "\x7b" [.opening (α := α) .brace] (s.toList ++ ("\x7d".toList ++ rest)) :=
    scans_mark (c := '\x7b') rfl rfl (.inl (by decide))
  exact (hopening.append hinner).append (scans_mark (c := '\x7d') rfl rfl (.inl (by decide)))

theorem IsScannedAs.operand (h : IsScannedAs s ts) (style : Style) (rest : List Char) :
    Scans (style.operand s) (bracketed .paren ts) rest := by
  have hopening (rest) : Scans "(" [.opening (α := α) .paren] rest :=
    scans_mark (c := '(') rfl rfl (.inl (by decide))
  have hclosing : Scans ")" [.closing (α := α) .paren] rest :=
    scans_mark (c := ')') rfl rfl (.inl (by decide))
  cases style with
  | plain =>
    have hinner := h (")".toList ++ rest) (Text.breaks_cons (c := ')') (by decide) _)
    exact ((hopening _).append hinner).append hclosing
  | rendered spaced =>
    -- The commands for the size of the brackets leave no token.
    have hleft (rest) : Scans (α := α) (Style.command spaced "left") [] ("(".toList ++ rest) :=
      scans_styleCommand (t := none) spaced "left" rfl rfl (by rintro c ⟨⟩; rfl)
    have hright : Scans (α := α) (Style.command spaced "right") [] (")".toList ++ rest) :=
      scans_styleCommand (t := none) spaced "right" rfl rfl (by rintro c ⟨⟩; rfl)
    have hinner := h _ (breaks_command spaced "right" (")".toList ++ rest))
    have hall := ((((hleft _).append (hopening _)).append hinner).append hright).append hclosing
    simpa [bracketed, Style.operand] using hall

theorem IsScannedAs.infix (h : IsScannedAs s ts) (h' : IsScannedAs s' ts') (style : Style)
    (op : Op) (rest : List Char) :
    Scans (style.operand s ++ Style.mark op ++ style.operand s')
      (bracketed .paren ts ++ ofOp op :: bracketed .paren ts') rest := by
  -- A star could run into a second one, so for a product it matters what the operand begins with.
  have hstar : '*' ∉ ((style.operand s').toList ++ rest).head? := fun h =>
    absurd (head_operand style s' rest _ h) (by decide)
  have hmark : Scans (Style.mark op) [.ofOp (α := α) op] ((style.operand s').toList ++ rest) := by
    cases op with
    | add => exact scans_mark (c := '+') rfl rfl (.inl (by decide))
    | sub => exact scans_mark (c := '-') rfl rfl (.inl (by decide))
    | mul => exact scans_mark (c := '*') rfl rfl (.inr hstar)
    | div => exact scans_mark (c := '/') rfl rfl (.inl (by decide))
    | pow => exact scans_mark (c := '^') rfl rfl (.inl (by decide))
  have hall := ((h.operand style _).append hmark).append (h'.operand style rest)
  simpa using hall

theorem IsScannedAs.binary (h : IsScannedAs s ts) (h' : IsScannedAs s' ts') (style : Style)
    (op : Op) (rest : List Char) :
    Scans (style.binary op s s') (style.binaryTokens op ts ts') rest := by
  cases style with
  | plain => cases op <;> exact h.infix h' .plain _ rest
  | rendered spaced =>
    cases op with
    | add | sub => exact h.infix h' (.rendered spaced) _ rest
    | mul => exact (h.operand _ _).append (h'.operand _ rest)
    | div =>
      have hfraction := scans_styleCommand (α := α) (t := some .fraction) spaced "frac" rfl
        rfl (head_braces s ((Style.braces s').toList ++ rest))
      exact (hfraction.append (h.braces _)).append (h'.braces rest)
    | pow =>
      have hcaret : Scans "^" [.caret (α := α)] ((Style.braces s').toList ++ rest) :=
        scans_mark (c := '^') rfl rfl (.inl (by decide))
      have hall := ((h.operand (.rendered spaced) _).append hcaret).append (h'.braces rest)
      simpa [Style.binary, Style.binaryTokens] using hall

theorem IsScannedAs.call (h : IsScannedAs s ts) (style : Style) (f : Func) (rest : List Char) :
    Scans (style.call f s) (style.callTokens f ts) rest := by
  cases style with
  | plain =>
    obtain ⟨hne, halpha⟩ := isWord_iff.mp (isWord_name f)
    have hbreaks : Text.Breaks ((Style.plain.operand s).toList ++ rest) := fun c hc => by
      rcases head_operand .plain s rest c hc with rfl | rfl <;> decide
    have hname : Scans f.name [.func (α := α) f] ((Style.plain.operand s).toList ++ rest) :=
      scans_word (ofWord?_name f) hne halpha hbreaks
    exact hname.append (h.operand .plain rest)
  | rendered spaced =>
    have hname := scans_styleCommand spaced f.name (ofCommand?_name (α := α) f) (isWord_name f)
      (head_braces (Style.operand (.rendered spaced) s) rest)
    have hinner : IsScannedAs (Style.operand (.rendered spaced) s) (bracketed .paren ts) :=
      fun rest _ => h.operand (.rendered spaced) rest
    exact hname.append (hinner.braces rest)

end Token

namespace Expr

variable {α : Type} [Arithmetic α] {e : Expr Nat}

/-- A printed tree is scanned as its tokens. -/
theorem IsWritable.isScannedAs (h : e.IsWritable) (style : Style) :
    Token.IsScannedAs (e.written style) (e.tokens (α := α) style) := by
  induction h with
  | number n => exact fun rest hrest => Token.scans_number n hrest
  | symbol h => exact fun rest hrest => Token.scans_symbolName h hrest
  | unknown h => exact fun rest hrest => Token.scans_unknownCommand h hrest
  | negate _ ih =>
    intro rest _
    have hminus (rest) : Token.Scans "-" [.minus (α := α)] rest :=
      Token.scans_mark (c := '-') rfl rfl (.inl (by decide))
    exact (hminus _).append (ih.operand style rest)
  | binary op _ _ ihl ihr => exact fun rest _ => ihl.binary ihr style op rest
  | call f _ ih => exact fun rest _ => ih.call style f rest

/-- Reading undoes printing in both styles: the tree comes back, with the powers of Euler's number
as calls of the exponential function; so a tree without such powers is unchanged. -/
theorem parse_written (h : e.IsWritable) (style : Style) :
    parse (α := α) (e.written style) = .ok (e.withExp.map Nat.cast) ∧
      (e.HasNoEulerPower → parse (α := α) (e.written style) = .ok (e.map Nat.cast)) := by
  have hparse : parse (α := α) (e.written style) = .ok (e.withExp.map Nat.cast) := by
    rw [parse, Token.ofText_eq (h.isScannedAs style [] nofun)]
    exact (isSum_tokens style e).ofTokens
  refine ⟨hparse, fun hpower => ?_⟩
  rw [hparse, withExp_eq_self hpower]

/-- `C1 e ^ (-t / 2)`, a decaying solution with its constant. -/
def decaying : Expr Nat :=
  binary .mul (symbol "C1")
    (binary .pow (symbol "e") (negate (binary .div (symbol "t") (number 2))))

/-- `sin(10 t) - \Gamma ^ x`, without a power of Euler's number. -/
def unknownPower : Expr Nat :=
  binary .sub (call .sin (binary .mul (number 10) (symbol "t")))
    (binary .pow (unknown "Gamma") (symbol "x"))

theorem decaying_isWritable : decaying.IsWritable :=
  .binary .mul (.symbol rfl)
    (.binary .pow (.symbol rfl) (.negate (.binary .div (.symbol rfl) (.number 2))))

theorem unknownPower_isWritable : unknownPower.IsWritable :=
  .binary .sub (.call .sin (.binary .mul (.number 10) (.symbol rfl)))
    (.binary .pow (.unknown rfl) (.symbol rfl))

theorem parse_written_decaying :
    parse (α := Float) "(C1)*((e)^(-((t)/(2))))" =
        .ok (binary .mul (symbol "C1")
          (call .exp (negate (binary .div (symbol "t") (number (2 : Nat)))))) ∧
      parse (α := Float) ("\\left(\\sin\x7b\\left(\\left(10\\right)\\left(t\\right)\\right)\x7d\\right)"
        ++ "-\\left(\\left(\\Gamma \\right)^\x7bx\x7d\\right)") =
        .ok (unknownPower.map Nat.cast) := by
  refine ⟨(parse_written decaying_isWritable .plain).1, ?_⟩
  have hpower : unknownPower.HasNoEulerPower := by simp [HasNoEulerPower, unknownPower]
  exact (parse_written unknownPower_isWritable (.rendered false)).2 hpower

end Expr

end Oscillator
