import Oscillator.Proofs.Double.Negation
import Oscillator.Proofs.Expansion.Negation
import Oscillator.Proofs.Parsing.LeadingMinus

/-! # The opposite of a text

A minus before a text gives the opposite terms, bit for bit, and leaves out the same parts, as long as
no exponent follows the first operand. An exponent there is one of the opposite operand: the
exponential function is then no longer recognized behind its minus.
-/
namespace Oscillator

instance (f : Elementary) : Arithmetic.LawfulNeg (Double f) where
  neg_mul := Double.neg_mul
  neg_bne_zero := Double.neg_bne_zero

namespace Expr

variable {α : Type} [Arithmetic α]

/-- A minus before a text that is no sum or difference never makes it unreadable. Unless an exponent
follows the first operand, the terms are the opposites of those without the minus, in the same order,
and the same parts are left out. -/
theorem expandLenient_minus {f : Elementary} {s : String} {e : Expr (Double f)}
    (hp : parse s = .ok e) (hadd : ∀ a b, e ≠ .binary .add a b) (hsub : ∀ a b, e ≠ .binary .sub a b) :
    ∃ e', parse ("-" ++ s) = .ok e' ∧ (¬BeginsWithPower (Token.ofText (α := Double f) s) →
      e'.expandLenient = ⟨e.expandLenient.terms.map .negate, e.expandLenient.rejected⟩) := by
  obtain ⟨e', he', hnegates⟩ := parse_minus negates_negate Negates.mul Negates.div hp hadd hsub
  exact ⟨e', he', fun hpower => (hnegates hpower).expandLenient⟩

/-- The exponential function of `-t`. -/
def decay : Expr α := .call .exp (.negate (.symbol timeName))

/-- The tokens of Euler's number to the power of `-t`. -/
def decayTokens : List (Token α) :=
  [.symbol "e", .caret, .opening .paren, .minus, .symbol "t", .closing .paren]

theorem ofText_decay : Token.ofText (α := α) "e^(-t)" = decayTokens := by
  simp [decayTokens, Token.ofText, Token.scan, Text.isBlank, Token.isNumeralChar, Text.isLetter,
    Token.ofWord?, Token.ofMark?, Token.index, Token.letters, Func.ofName?, Func.all, Func.name]

theorem ofText_time_decay : Token.ofText (α := α) "t e^(-t)" = .symbol "t" :: decayTokens := by
  simp [decayTokens, Token.ofText, Token.scan, Text.isBlank, Token.isNumeralChar, Text.isLetter,
    Token.ofWord?, Token.ofMark?, Token.index, Token.letters, Func.ofName?, Func.all, Func.name]

section

omit [Arithmetic α]

theorem ofTokens_decay : ofTokens (α := α) decayTokens = .ok decay := by
  simp [decayTokens, ofTokens, sum, product, powers, unary, primary, group, powersTail, productTail,
    sumTail, Token.startsFactor, Reading.closed, Reading.widen, Except.ok_bind, pure, Except.pure, decay,
    timeName, power, eulerName]

theorem ofTokens_time_decay : ofTokens (α := α) (.symbol "t" :: decayTokens) =
    .ok (.binary .mul (.symbol timeName) decay) := by
  simp [decayTokens, ofTokens, sum, product, powers, unary, primary, group, powersTail, productTail,
    sumTail, Token.startsFactor, Reading.closed, Reading.widen, Except.ok_bind, pure, Except.pure, decay,
    timeName, power, eulerName]

/-- Behind a minus the base is no longer Euler's number itself. -/
theorem ofTokens_minus_decay : ofTokens (α := α) (.minus :: decayTokens) =
    .ok (.binary .pow (.negate (.symbol eulerName)) (.negate (.symbol timeName))) := by
  simp [decayTokens, ofTokens, sum, product, powers, unary, primary, group, powersTail, productTail,
    sumTail, Token.startsFactor, Reading.closed, Reading.widen, Except.ok_bind, pure, Except.pure,
    timeName, power, eulerName]

theorem time_decay_not_beginsWithPower :
    ¬BeginsWithPower (α := α) (.symbol "t" :: decayTokens) := by
  rintro ⟨base, rest, h⟩
  have htime := isOperand_symbol (α := α) "t" decayTokens
  obtain ⟨-, hrest⟩ := h.unique htime
  cases hrest

end

theorem expandLenient_minus_time_decay :
    ∃ e' : Expr (Double .native), parse ("-" ++ "t e^(-t)") = .ok e' ∧ e'.expandLenient =
      ⟨(binary .mul (.symbol timeName) decay).expandLenient.terms.map .negate,
        (binary .mul (.symbol timeName) (decay (α := Double .native))).expandLenient.rejected⟩ := by
  have hp : parse (α := Double .native) "t e^(-t)" = .ok (.binary .mul (.symbol timeName) decay) := by
    rw [parse, ofText_time_decay, ofTokens_time_decay]
  obtain ⟨e', he', hopposite⟩ := expandLenient_minus hp (by rintro a b ⟨⟩) (by rintro a b ⟨⟩)
  refine ⟨e', he', hopposite ?_⟩
  rw [ofText_time_decay]
  exact time_decay_not_beginsWithPower

/-- A minus before an exponential function makes a power of it whose exponent varies, and the whole text
is left out. -/
theorem expandLenient_minus_decay_rejected :
    ¬∀ (s : String) (e : Expr (Double .native)), parse s = .ok e → (∀ a b, e ≠ .binary .add a b) →
      (∀ a b, e ≠ .binary .sub a b) → ∃ e', parse ("-" ++ s) = .ok e' ∧ e'.expandLenient =
        ⟨e.expandLenient.terms.map .negate, e.expandLenient.rejected⟩ := by
  intro h
  have hp : parse (α := Double .native) "e^(-t)" = .ok decay := by
    rw [parse, ofText_decay, ofTokens_decay]
  obtain ⟨e', he', hopposite⟩ := h _ _ hp (by rintro a b ⟨⟩) (by rintro a b ⟨⟩)
  rw [parse, Token.ofText_minus, ofText_decay, ofTokens_minus_decay] at he'
  cases he'
  have hslope : ((-1 : Double .native) == 0) = false := by decide +kernel
  have hvaries : (negate (symbol (α := Double .native) timeName)).constantValue = none := by
    simp [constantValue, linearIn, Linear.negate, Linear.isConstant, hslope]
  have hleft : (binary .pow (.negate (.symbol eulerName))
      (.negate (.symbol (α := Double .native) timeName))).expand = .error .varyingExponent := by
    rw [expand, hvaries]
    rfl
  have hrejected := congrArg Salvage.rejected hopposite
  rw [expandLenient, summands] at hrejected
  · rw [hleft] at hrejected
    cases hrejected
  all_goals simp

end Expr

end Oscillator
