import Mathlib.Analysis.SpecialFunctions.Pow.Real
import Mathlib.Analysis.SpecialFunctions.Sqrt
import Oscillator.Arithmetic

/-! # Exact numbers

The arithmetic of the real numbers, without rounding and without overflow. An operation that has
no real result, such as a division by zero, answers one undefined number, and every operation on
that one is undefined again. Statements about formulas, apart from their rounding, speak of this
arithmetic.
-/
namespace Oscillator

/-- A real number, or the result of an operation without one. -/
inductive Exact where
  | real (x : ℝ)
  | undefined

namespace Exact

def map (f : ℝ → ℝ) : Exact → Exact
  | real x => real (f x)
  | undefined => undefined

def bind (f : ℝ → Exact) : Exact → Exact
  | real x => f x
  | undefined => undefined

def compare (r : ℝ → ℝ → Prop) : Exact → Exact → Prop
  | real x, real y => r x y
  | _, _ => False

open scoped Classical in
/-- The real power, where zero has no negative one and a negative number only whole ones. -/
noncomputable def power (x y : ℝ) : Exact :=
  if (x = 0 ∧ y < 0) ∨ (x < 0 ∧ y ≠ ⌊y⌋) then undefined else real (x ^ y)

open scoped Classical in
/-- No sign of a zero is kept, and an exponent of time is stored as it is. -/
noncomputable instance : Arithmetic Exact where
  add a b := a.bind fun x => b.map (x + ·)
  sub a b := a.bind fun x => b.map (x - ·)
  mul a b := a.bind fun x => b.map (x * ·)
  div a b := a.bind fun x => b.bind fun y => if y = 0 then undefined else real (x / y)
  neg := map (- ·)
  lt := compare (· < ·)
  le := compare (· ≤ ·)
  beq
    | real x, real y => decide (x = y)
    | _, _ => false
  decideLT _ _ := Classical.propDecidable _
  decideLE _ _ := Classical.propDecidable _
  decimal m e := real (m * 10 ^ e)
  undefined := undefined
  pi := real Real.pi
  euler := real (Real.exp 1)
  isFinite
    | real _ => true
    | undefined => false
  isNegative a := decide (compare (· < ·) a (real 0))
  abs := map (|·|)
  floor := map (⌊·⌋)
  sqrt := bind fun x => if x < 0 then undefined else real (Real.sqrt x)
  sin := map Real.sin
  cos := map Real.cos
  tan := bind fun x => if Real.cos x = 0 then undefined else real (Real.tan x)
  exp := map Real.exp
  pow a b := a.bind fun x => b.bind (power x)
  toCount
    | real x => min ⌊x⌋₊ 0xffffffffffffffff
    | undefined => 0
  storePower := id

variable (a b : Exact) (x y z : ℝ)

@[simp] theorem real_add : real x + real y = real (x + y) := rfl
@[simp] theorem real_sub : real x - real y = real (x - y) := rfl
@[simp] theorem real_mul : real x * real y = real (x * y) := rfl
@[simp] theorem real_neg : -real x = real (-x) := rfl
@[simp] theorem real_div_zero : real x / real 0 = undefined := if_pos rfl
@[simp] theorem undefined_add : undefined + a = undefined := rfl
@[simp] theorem undefined_sub : undefined - a = undefined := rfl
@[simp] theorem undefined_mul : undefined * a = undefined := rfl
@[simp] theorem undefined_div : undefined / a = undefined := rfl
@[simp] theorem neg_undefined : -undefined = undefined := rfl
@[simp] theorem add_undefined : a + undefined = undefined := by cases a <;> rfl
@[simp] theorem sub_undefined : a - undefined = undefined := by cases a <;> rfl
@[simp] theorem mul_undefined : a * undefined = undefined := by cases a <;> rfl
@[simp] theorem div_undefined : a / undefined = undefined := by cases a <;> rfl

theorem real_div {x y : ℝ} (h : y ≠ 0) : real x / real y = real (x / y) := if_neg h

@[simp] theorem real_lt : real x < real y ↔ x < y := Iff.rfl
@[simp] theorem real_le : real x ≤ real y ↔ x ≤ y := Iff.rfl
@[simp] theorem not_undefined_lt : ¬undefined < a := id
@[simp] theorem not_undefined_le : ¬undefined ≤ a := id
@[simp] theorem not_lt_undefined : ¬a < undefined := by cases a <;> exact id
@[simp] theorem not_le_undefined : ¬a ≤ undefined := by cases a <;> exact id
@[simp] theorem real_beq : (real x == real y) = decide (x = y) := rfl
@[simp] theorem undefined_beq : (undefined == a) = false := rfl
@[simp] theorem isFinite_real : Arithmetic.isFinite (real x) = true := rfl
@[simp] theorem isFinite_undefined : Arithmetic.isFinite undefined = false := rfl
@[simp] theorem isNegative_real : Arithmetic.isNegative (real x) = decide (x < 0) := rfl

@[simp] theorem undefined_eq : (Arithmetic.undefined : Exact) = undefined := rfl
@[simp] theorem pi_eq : (Arithmetic.pi : Exact) = real Real.pi := rfl
@[simp] theorem abs_real : Arithmetic.abs (real x) = real |x| := rfl
@[simp] theorem floor_real : Arithmetic.floor (real x) = real ⌊x⌋ := rfl
@[simp] theorem cos_real : Arithmetic.cos (real x) = real (Real.cos x) := rfl
@[simp] theorem sin_real : Arithmetic.sin (real x) = real (Real.sin x) := rfl
@[simp] theorem exp_real : Arithmetic.exp (real x) = real (Real.exp x) := rfl

theorem sqrt_real {x : ℝ} (h : 0 ≤ x) : Arithmetic.sqrt (real x) = real (Real.sqrt x) :=
  if_neg h.not_gt

@[simp] theorem natCast_eq (n : ℕ) : (n : Exact) = real n := by
  change real (n * 10 ^ (0 : ℤ)) = real n
  simp

@[simp] theorem ofNat_eq (n : ℕ) : (OfNat.ofNat n : Exact) = real n := natCast_eq n

@[simp] theorem ofScientific_eq (m : ℕ) (negative : Bool) (e : ℕ) :
    (OfScientific.ofScientific m negative e : Exact) = real (OfScientific.ofScientific m negative e) := by
  cases negative with
  | false => simp [OfScientific.ofScientific, Arithmetic.decimal, Rat.ofScientific_false_def]
  | true => simp [OfScientific.ofScientific, Arithmetic.decimal, Rat.ofScientific_true_def,
      Rat.mkRat_eq_div, div_eq_mul_inv]

@[simp] theorem isUndefined_real : Arithmetic.isUndefined (real x) = false := by
  simp [Arithmetic.isUndefined]

theorem larger_real : Arithmetic.larger (real x) (real y) = real (max x y) := by
  by_cases h : x < y
  · simp [Arithmetic.larger, h, max_eq_right h.le]
  · simp [Arithmetic.larger, Arithmetic.isUndefined, h, max_eq_left (not_lt.mp h)]

theorem smaller_real : Arithmetic.smaller (real x) (real y) = real (min x y) := by
  by_cases h : y < x
  · simp [Arithmetic.smaller, h, min_eq_right h.le]
  · simp [Arithmetic.smaller, Arithmetic.isUndefined, h, min_eq_left (not_lt.mp h)]

theorem toCount_real : Arithmetic.toCount (real x) = min ⌊x⌋₊ 0xffffffffffffffff := rfl

/-! A result is a real number only where the operands are. -/

variable {a b z}

theorem isFinite_iff : Arithmetic.isFinite a = true ↔ ∃ x, a = real x := by cases a <;> simp

theorem beq_real_iff : (a == real z) = true ↔ a = real z := by cases a <;> simp

theorem neg_eq_real : -a = real z ↔ a = real (-z) := by
  cases a <;> simp [neg_eq_iff_eq_neg]

theorem add_eq_real : a + b = real z ↔ ∃ x y, a = real x ∧ b = real y ∧ x + y = z := by
  cases a <;> cases b <;> simp

theorem sub_eq_real : a - b = real z ↔ ∃ x y, a = real x ∧ b = real y ∧ x - y = z := by
  cases a <;> cases b <;> simp

theorem mul_eq_real : a * b = real z ↔ ∃ x y, a = real x ∧ b = real y ∧ x * y = z := by
  cases a <;> cases b <;> simp

theorem div_eq_real : a / b = real z ↔ ∃ x y, a = real x ∧ b = real y ∧ y ≠ 0 ∧ x / y = z := by
  cases a with
  | undefined => simp
  | real x =>
    cases b with
    | undefined => simp
    | real y => by_cases h : y = 0 <;> simp [h, real_div]

end Exact
end Oscillator
