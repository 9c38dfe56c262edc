import Mathlib.Logic.Basic
import Oscillator.System

/-! # Which parameters describe a system

Parameters describe a system if mass and stiffness are given together, or neither but the squared
frequency of the normalized equation, and what they give is finite and of the right sign. They
describe nothing if all three are missing, and everything else is an error.
-/
namespace Oscillator

variable {α : Type} [Arithmetic α]

namespace Arithmetic

def IsPositive (x : α) : Prop := isFinite x = true ∧ 0 < x

def IsNonnegative (x : α) : Prop := isFinite x = true ∧ 0 ≤ x

instance (x : α) : Decidable (IsPositive x) := inferInstanceAs (Decidable (_ ∧ _))

instance (x : α) : Decidable (IsNonnegative x) := inferInstanceAs (Decidable (_ ∧ _))

end Arithmetic

open Arithmetic

/-- Mass, stiffness and damping are finite, mass and stiffness positive, and the damping is not
negative. -/
structure System.IsValid (s : System α) : Prop where
  mass : IsPositive s.mass
  stiffness : IsPositive s.stiffness
  damping : IsNonnegative s.damping

namespace Parameters

variable {p : Parameters α} {s : System α}

/-- The system of given constants, at rest in the origin where nothing else is said. -/
def withConstants (p : Parameters α) (mass stiffness damping : α) : System α where
  mass
  stiffness
  damping
  initialPosition := p.initialPosition.getD 0
  initialVelocity := p.initialVelocity.getD 0
  force := p.force

theorem validate_eq_ok_iff {mass stiffness damping : α} :
    p.validate mass stiffness damping = .ok s ↔
      s.IsValid ∧ s = p.withConstants mass stiffness damping := by
  unfold validate
  constructor
  · intro h
    split at h
    case isTrue => simp at h
    case isFalse hm =>
      split at h
      case isTrue => simp at h
      case isFalse hk =>
        split at h
        case isTrue => simp at h
        case isFalse hd =>
          simp only [Bool.not_eq_true', Bool.not_eq_false, Bool.and_eq_true, decide_eq_true_eq] at hm hk hd
          cases h
          exact ⟨⟨hm, hk, hd⟩, rfl⟩
  · rintro ⟨⟨⟨hm, hm'⟩, ⟨hk, hk'⟩, hd, hd'⟩, rfl⟩
    simp only [withConstants] at hm hm' hk hk' hd hd'
    simp [withConstants, hm, hm', hk, hk', hd, hd']

/-- A check fails where one of the three numbers is not as it has to be. -/
theorem exists_validate_eq_error_iff {mass stiffness damping : α} :
    (∃ e, p.validate mass stiffness damping = .error e) ↔
      ¬IsPositive mass ∨ ¬IsPositive stiffness ∨ ¬IsNonnegative damping := by
  rw [← not_and_or, ← not_and_or]
  cases h : p.validate mass stiffness damping with
  | error e =>
    refine iff_of_true ⟨e, rfl⟩ fun ⟨hm, hk, hd⟩ => ?_
    rw [validate_eq_ok_iff.mpr ⟨⟨hm, hk, hd⟩, rfl⟩] at h
    cases h
  | ok s =>
    obtain ⟨⟨hm, hk, hd⟩, rfl⟩ := validate_eq_ok_iff.mp h
    exact iff_of_false (by simp) (not_not.mpr ⟨hm, hk, hd⟩)

omit [Arithmetic α] in
theorem exists_map_some_eq_error {x : Except (ParameterError α) (System α)} :
    (∃ e, some <$> x = .error e) ↔ ∃ e, x = .error e := by
  cases x <;> simp [Functor.map, Except.map]

omit [Arithmetic α] in
theorem map_some_eq_ok {x : Except (ParameterError α) (System α)} :
    some <$> x = .ok (some s) ↔ x = .ok s := by
  cases x <;> simp [Functor.map, Except.map]

omit [Arithmetic α] in
theorem map_some_ne_none {x : Except (ParameterError α) (System α)} : some <$> x ≠ .ok none := by
  cases x <;> simp [Functor.map, Except.map]

/-- Constants of a system are given: mass and stiffness with a damping, or the normalized equation
with a coefficient that is not negative. -/
inductive Gives (p : Parameters α) : α → α → α → Prop where
  | physical {mass stiffness : α} (hm : p.mass = some mass) (hk : p.stiffness = some stiffness) :
    Gives p mass stiffness (p.damping.getD 0)
  | normalized {omegaSquared : α} (hm : p.mass = none) (hk : p.stiffness = none)
    (hw : p.omegaSquared = some omegaSquared) (hb : 0 ≤ p.beta.getD 0) :
    Gives p 1 omegaSquared (2 * p.beta.getD 0)

theorem system?_of_physical {mass stiffness : α} (hm : p.mass = some mass)
    (hk : p.stiffness = some stiffness) :
    p.system? = some <$> p.validate mass stiffness (p.damping.getD 0) := by
  simp only [system?, hm, hk]

theorem system?_of_normalized {omegaSquared : α} (hm : p.mass = none) (hk : p.stiffness = none)
    (hw : p.omegaSquared = some omegaSquared) :
    p.system? = if 0 ≤ p.beta.getD 0 then some <$> p.validate 1 omegaSquared (2 * p.beta.getD 0)
      else .error (.negativeBeta (p.beta.getD 0)) := by
  simp only [system?, hm, hk, hw]

theorem system?_eq_some_iff : p.system? = .ok (some s) ↔
    ∃ mass stiffness damping, p.Gives mass stiffness damping ∧ s.IsValid ∧
      s = p.withConstants mass stiffness damping := by
  constructor
  · intro h
    cases hm : p.mass with
    | some mass =>
      cases hk : p.stiffness with
      | some stiffness =>
        rw [system?_of_physical hm hk, map_some_eq_ok] at h
        exact ⟨_, _, _, .physical hm hk, validate_eq_ok_iff.mp h⟩
      | none => simp [system?, hm, hk] at h
    | none =>
      cases hk : p.stiffness with
      | some stiffness => simp [system?, hm, hk] at h
      | none =>
        cases hw : p.omegaSquared with
        | some omegaSquared =>
          rw [system?_of_normalized hm hk hw] at h
          by_cases hb : 0 ≤ p.beta.getD 0
          · rw [if_pos hb, map_some_eq_ok] at h
            exact ⟨_, _, _, .normalized hm hk hw hb, validate_eq_ok_iff.mp h⟩
          · simp [hb] at h
        | none => simp [system?, hm, hk, hw] at h
  · rintro ⟨mass, stiffness, damping, hg, hs⟩
    rw [← validate_eq_ok_iff] at hs
    cases hg with
    | physical hm hk => rwa [system?_of_physical hm hk, map_some_eq_ok]
    | normalized hm hk hw hb => rwa [system?_of_normalized hm hk hw, if_pos hb, map_some_eq_ok]

/-- Parameters describe nothing only where none of the three is given. -/
theorem system?_eq_none_iff : p.system? = .ok none ↔
    p.mass = none ∧ p.stiffness = none ∧ p.omegaSquared = none := by
  constructor
  · intro h
    cases hm : p.mass with
    | some mass =>
      cases hk : p.stiffness with
      | some stiffness => exact absurd (system?_of_physical hm hk ▸ h) map_some_ne_none
      | none => simp [system?, hm, hk] at h
    | none =>
      cases hk : p.stiffness with
      | some stiffness => simp [system?, hm, hk] at h
      | none =>
        cases hw : p.omegaSquared with
        | some omegaSquared =>
          rw [system?_of_normalized hm hk hw] at h
          by_cases hb : 0 ≤ p.beta.getD 0
          · exact absurd (if_pos hb ▸ h) map_some_ne_none
          · simp [hb] at h
        | none => exact ⟨rfl, rfl, rfl⟩
  · rintro ⟨hm, hk, hw⟩
    simp only [system?, hm, hk, hw]

/-- What is given describes no system: mass or stiffness without the other, or a number that is not
finite or of the wrong sign. -/
def IsInvalid (p : Parameters α) : Prop :=
  (p.mass ≠ none ∨ p.stiffness ≠ none) ∧
      ((p.mass = none ∨ p.stiffness = none) ∨ (∃ mass, p.mass = some mass ∧ ¬IsPositive mass) ∨
        (∃ stiffness, p.stiffness = some stiffness ∧ ¬IsPositive stiffness) ∨
        ¬IsNonnegative (p.damping.getD 0)) ∨
    (p.mass = none ∧ p.stiffness = none) ∧ ∃ omegaSquared, p.omegaSquared = some omegaSquared ∧
      (¬0 ≤ p.beta.getD 0 ∨ ¬IsPositive omegaSquared ∨ isFinite (2 * p.beta.getD 0) = false)

/-- Parameters are an error exactly where they are invalid, in an arithmetic where one is positive and
doubling keeps the sign. -/
theorem exists_system?_eq_error_iff (hone : IsPositive (1 : α))
    (htwo : ∀ x : α, 0 ≤ x → 0 ≤ 2 * x) :
    (∃ e, p.system? = .error e) ↔ p.IsInvalid := by
  cases hm : p.mass with
  | some mass =>
    cases hk : p.stiffness with
    | some stiffness =>
      rw [system?_of_physical hm hk, exists_map_some_eq_error, exists_validate_eq_error_iff]
      simp [IsInvalid, hm, hk]
    | none => simp [system?, IsInvalid, hm, hk]
  | none =>
    cases hk : p.stiffness with
    | some stiffness => simp [system?, IsInvalid, hm, hk]
    | none =>
      cases hw : p.omegaSquared with
      | none => simp [system?, IsInvalid, hm, hk, hw]
      | some omegaSquared =>
        rw [system?_of_normalized hm hk hw]
        by_cases hb : 0 ≤ p.beta.getD 0
        · have hdamping : ¬IsNonnegative (2 * p.beta.getD 0) ↔ isFinite (2 * p.beta.getD 0) = false := by
            rw [← Bool.not_eq_true, not_iff_not]
            exact ⟨fun h => h.1, fun h => ⟨h, htwo _ hb⟩⟩
          rw [if_pos hb, exists_map_some_eq_error, exists_validate_eq_error_iff, hdamping]
          simp [IsInvalid, hm, hk, hw, hb, hone]
        · simp [IsInvalid, hm, hk, hw, hb]

end Parameters

end Oscillator
