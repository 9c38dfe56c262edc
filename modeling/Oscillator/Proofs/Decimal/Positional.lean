import Mathlib
import Oscillator.Decimal.Numeral
import Oscillator.Decimal.Shortest
import Oscillator.Proofs.Parsing.Scanning

/-! # Positional notation

A decimal is written with digits and a point, and read back from them as it is.
-/
namespace Oscillator.Decimal

theorem fixedPoint?_point {whole places : List Char} (hne : whole ≠ [])
    (hw : ∀ c ∈ whole, c.isDigit = true) (hp : ∀ c ∈ places, c.isDigit = true) :
    fixedPoint? (whole ++ '.' :: places) = some (digitsValue (whole ++ places), -(places.length : ℤ)) := by
  have hpoint : ∀ c ∈ ('.' :: places).head?, c.isDigit = false := by
    rintro c ⟨⟩
    rfl
  obtain ⟨htake, hdrop⟩ := Text.run_append whole ('.' :: places) hw hpoint
  rw [fixedPoint?, htake, hdrop]
  refine if_pos ?_
  rw [List.all_eq_true.mpr hp, List.isEmpty_eq_false_iff.mpr hne]
  rfl

theorem digitsValue_append (cs ds : List Char) :
    digitsValue (cs ++ ds) = 10 ^ ds.length * digitsValue cs + digitsValue ds :=
  (Nat.ofDigitChars_append 0).trans Nat.ofDigitChars_eq_ofDigitChars_zero

theorem digitsValue_zeros (n : ℕ) : digitsValue (List.replicate n '0') = 0 :=
  Nat.ofDigitChars_replicate_zero.trans (Nat.mul_zero _)

theorem toList_pushn (s : String) (c : Char) (n : ℕ) :
    (s.pushn c n).toList = s.toList ++ List.replicate n c := by
  rw [String.pushn_eq_repeat_push]
  induction n with
  | zero => simp [Nat.repeat]
  | succ n ih => rw [Nat.repeat, String.toList_push, ih, List.append_assoc, List.replicate_succ']

/-- The digits behind the point, filled up with zeros before them. -/
def fraction (d places : ℕ) : List Char :=
  let digits := Nat.toDigits 10 (d % 10 ^ places)
  List.replicate (places - digits.length) '0' ++ digits

theorem isDigit_fraction (d places : ℕ) : ∀ c ∈ fraction d places, c.isDigit = true := by
  refine List.forall_mem_append.mpr ⟨fun c hc => ?_, fun c hc => isDigit_of_mem_toDigits hc⟩
  rw [List.eq_of_mem_replicate hc]
  rfl

theorem length_fraction (d : ℕ) {places : ℕ} (hp : 0 < places) : (fraction d places).length = places := by
  have hlength := (Nat.length_toDigits_le_iff (by decide) hp).mpr
    (Nat.mod_lt d (y := 10 ^ places) (Nat.pow_pos (by decide)))
  rw [fraction, List.length_append, List.length_replicate]
  omega

theorem digitsValue_fraction (d places : ℕ) : digitsValue (fraction d places) = d % 10 ^ places := by
  rw [fraction, digitsValue_append, digitsValue_zeros, digitsValue_toDigits, Nat.mul_zero, Nat.zero_add]

theorem positional_of_nonneg {d : ℕ} {k : ℤ} (hk : 0 ≤ k) :
    (positional d k).toList = Nat.toDigits 10 (d * 10 ^ k.toNat) := by
  rw [positional, if_pos hk]
  exact Nat.toList_repr

theorem positional_of_neg {d : ℕ} {k : ℤ} (hk : k < 0) :
    (positional d k).toList =
      Nat.toDigits 10 (d / 10 ^ (-k).toNat) ++ '.' :: fraction d (-k).toNat := by
  rw [positional, if_neg (by omega)]
  simp [toList_pushn, fraction, Nat.pow_eq, ← String.length_toList]

/-- A decimal is read back from its digits: as a whole number, or with as many places as were written. -/
theorem fixedPoint?_positional (d : ℕ) (k : ℤ) :
    fixedPoint? (positional d k).toList = some (if 0 ≤ k then (d * 10 ^ k.toNat, 0) else (d, k)) := by
  split
  case isTrue hk =>
    rw [positional_of_nonneg hk, fixedPoint?_toDigits]
  case isFalse hk =>
    have hplaces : 0 < (-k).toNat := by omega
    rw [positional_of_neg (Int.not_le.mp hk), fixedPoint?_point Nat.toDigits_ne_nil
      (fun c hc => isDigit_of_mem_toDigits hc) (isDigit_fraction d _), digitsValue_append,
      digitsValue_toDigits, digitsValue_fraction, length_fraction d hplaces, Nat.div_add_mod]
    congr 2
    omega

end Oscillator.Decimal
