import Oscillator.Proofs.Decimal.ReadBack
import Oscillator.Proofs.Reading.ExponentNotation
import Oscillator.Record.Response

/-! # Forces given as numbers

A force may be given as a number instead of a text. It is turned into a text first, and the text is read as a
forcing that stays at the number.
-/
namespace Oscillator

open Double Monomial Oscillator.Expr ExponentNumeral

namespace Double

open Float.Model

/-- A finite double other than zero is added to zero without rounding. -/
theorem zero_add {f : Elementary} {x : Double f} (hf : Arithmetic.isFinite x = true)
    (hx : (x != 0) = true) : 0 + x = x := by
  have hadd : UnpackedFloat.add Format.binary64 (.zero .positive) (Float.toModel x).unpack =
      (Float.toModel x).unpack := by
    rcases unpack_of_isFinite hf with ⟨s, hu⟩ | ⟨s, m, e, hm, hu⟩
    · exact absurd hu (bne_zero_iff.mp hx s)
    · rw [hu]
      rfl
  change Float.ofModel (.pack (UnpackedFloat.add Format.binary64 (Float.toModel (0 : Double f)).unpack
    (Float.toModel x).unpack)) = x
  rw [unpack_zero, hadd]
  exact pack_unpack hf

theorem beq_self {f : Elementary} {x : Double f} (hf : Arithmetic.isFinite x = true) : (x == x) = true := by
  change UnpackedFloat.beq (Float.toModel x).unpack (Float.toModel x).unpack = true
  rcases unpack_of_isFinite hf with ⟨s, hu⟩ | ⟨s, m, e, hm, hu⟩
  · rw [hu]
    rfl
  · rw [hu]
    cases s <;> simp [UnpackedFloat.beq, UnpackedFloat.compare]

theorem zero_beq {f : Elementary} {x : Double f} (hx : (x != 0) = false) : (0 == x) = true := by
  rw [← Bool.not_eq_true, bne_zero_iff, not_forall_not] at hx
  obtain ⟨s, hs⟩ := hx
  change UnpackedFloat.beq (Float.toModel (0 : Double f)).unpack (Float.toModel x).unpack = true
  rw [unpack_zero, hs]
  rfl

theorem beq_unlessZero {f : Elementary} {x : Double f} (hf : Arithmetic.isFinite x = true) :
    ((if (x != 0) = true then x else 0) == x) = true := by
  split
  case isTrue => exact beq_self hf
  case isFalse hx => exact zero_beq (Bool.not_eq_true _ ▸ hx)

end Double

namespace Decimal

section

variable {α : Type} [Arithmetic α] {t : String} {y : α}

theorem Digits.scans (h : Digits t y) : Token.Scans t [.number y] [] := by
  obtain ⟨d, p, hread, rfl⟩ := h
  obtain ⟨hne, hchars⟩ := isNumeralChar_of_fixedPoint? hread
  have hend : ∀ c ∈ ([] : List Char).head?, Token.isNumeralChar c = false := by simp
  have hscan := Token.scans_digits (α := α) hne hchars hend
  rwa [Token.ofDigits, hread] at hscan

theorem Digits.parse (h : Digits t y) : Expr.parse t = .ok (.number y) := by
  rw [Expr.parse, Token.ofText_eq h.scans]
  exact (isOperand_number y).isSum.ofTokens

theorem Digits.parse_minus (h : Digits t y) : Expr.parse ("-" ++ t) = .ok (.negate (.number y)) := by
  have hminus : Token.Scans (α := α) "-" [.minus] (t.toList ++ []) :=
    Token.scans_mark rfl rfl (.inl (by decide))
  rw [Expr.parse, Token.ofText_eq (hminus.append h.scans)]
  exact (isOperand_number y).negate.isSum.ofTokens

end

variable {f : Elementary} {t : String} {x : Double f}

/-- The term of a number is the number, but a zero has none. -/
theorem Writes.expand (h : Writes t x) :
    ∃ e, Expr.parse t = .ok e ∧ e.expand = .ok (unlessZero x (constant x)) := by
  cases h with
  | digits h => exact ⟨_, h.parse, expand_number_eq x⟩
  | @minus t y h =>
    refine ⟨_, h.parse_minus, expand_negate.mpr ⟨_, expand_number_eq y, ?_⟩⟩
    rw [unlessZero, unlessZero, neg_bne_zero]
    split <;> rfl

theorem Writes.parse (h : Writes t x) : Forcing.parse t = .ok (Forcing.still (unlessZero x x)) := by
  obtain ⟨e, he, hexpand⟩ := h.expand
  rw [Forcing.parse_of_expand he hexpand, Forcing.ofTerms_offsets (isOffset_unlessZero (isOffset_constant x)),
    coefficient_unlessZero]
  rfl

/-- The text of a finite double is read as a forcing that stays at the double, or at zero for either zero. -/
theorem Writes.parse_eq (h : Writes t x) (hf : Arithmetic.isFinite x = true) :
    Forcing.parse t = .ok ⟨if (x != 0) = true then x else 0, 0, 0, 0⟩ := by
  rw [h.parse, Forcing.still, unlessZero]
  split
  case isTrue hx =>
    rw [List.foldl_cons, List.foldl_nil, zero_add hf hx]
    rfl
  case isFalse => rfl

/-- What such a text writes is the value of a numeral. -/
theorem Writes.exists_numeral {α : Type} [Arithmetic α] {y : α} (h : Writes t y) :
    ∃ x : Numeral, x.value = y := by
  cases h with
  | digits h =>
    obtain ⟨d, p, -, rfl⟩ := h
    exact ⟨.finite false d p, rfl⟩
  | minus h =>
    obtain ⟨d, p, -, rfl⟩ := h
    exact ⟨.finite true d p, rfl⟩

end Decimal

theorem Parameters.addMember_force {r : Record} {text : String} (h : r.readTextField = .ok (some text))
    (p : Parameters Float) : p.addMember "force" r = .ok { p with force := some text } := by
  simp only [addMember, h]
  rfl

namespace Record

theorem readTextField_of_number {r : Record} {v : Float} (h : r.number? = some v) :
    r.readTextField = .ok (some (Decimal.ofFloat v)) := by
  cases r <;> cases h <;> rfl

/-- Every finite double can be given as a number. As a force it becomes a text, and the text is read as a
forcing that stays at the double. -/
theorem parse_readTextField {v : Float} (hf : v.isFinite = true) :
    (∃ r : Record, r.number? = some v) ∧
      ∀ r : Record, r.number? = some v → ∃ text offset, r.readTextField = .ok (some text) ∧
        (∀ p : Parameters Float, p.addMember "force" r = .ok { p with force := some text }) ∧
        Forcing.parse text = .ok (⟨offset, 0, 0, 0⟩ : Harmonic Float) ∧
        (offset == v) = true ∧ ((v != 0) = true → offset = v) := by
  have hwrites := Decimal.ofFloat_writes hf
  refine ⟨?_, fun r hr => ?_⟩
  · obtain ⟨x, hx⟩ := hwrites.exists_numeral
    exact ⟨.number x, congrArg some hx⟩
  · have htext := readTextField_of_number hr
    have hparse := hwrites.parse_eq (f := .native) hf
    exact ⟨_, _, htext, Parameters.addMember_force htext, hparse, Double.beq_unlessZero hf,
      fun hv => if_pos hv⟩

theorem parse_readTextField_half : (-0.5 : Float).isFinite = true ∧
    ∃ text offset, (number (.finite true 5 (-1))).readTextField = .ok (some text) ∧
      Forcing.parse text = .ok (⟨offset, 0, 0, 0⟩ : Harmonic Float) ∧ offset = -0.5 := by
  have hf : (-0.5 : Float).isFinite = true := by decide +kernel
  have hnumber : (number (.finite true 5 (-1))).number? = some (-0.5 : Float) :=
    congrArg some (congrArg (- Float.ofScientific 5 · 1) (decide_eq_true (by decide)))
  obtain ⟨-, hparse⟩ := parse_readTextField hf
  obtain ⟨text, offset, htext, -, hforcing, -, hoffset⟩ := hparse _ hnumber
  exact ⟨hf, text, offset, htext, hforcing, hoffset (by decide +kernel)⟩

end Record

end Oscillator
