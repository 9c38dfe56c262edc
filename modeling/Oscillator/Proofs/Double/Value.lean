import Oscillator.Proofs.Double.Packing

/-! # Values of doubles

The number that a double without a minus stands for, and what an operation on such doubles gives:
the rounded number, or infinity where that is beyond all doubles.
-/
namespace Oscillator.Double

open Float.Model Float.Model.UnpackedFloat

/-- The size of an unpacked double that is finite and not negative. A zero may have either sign. -/
inductive HasValue : UnpackedFloat → ℚ → Prop where
  | zero {s : Sign} : HasValue (.zero s) 0
  | finite {m : ℕ} {e : ℤ} {hm : 0 < m} (hc : Canonical m e) (he : e ≤ 971) :
    HasValue (.finite .positive m e hm) (m * 2 ^ e)

def Valued (x : Float) (v : ℚ) : Prop := HasValue x.toModel.unpack v

/-- A double is a rounded number, or infinite because it is too large. -/
def RoundsTo (v : ℚ) (x : Float) : Prop :=
  ∃ r, Nearest v r ∧ (Valued x r ∨ x.toModel.unpack = .infinity .positive ∧ 2 ^ (1024 : ℤ) ≤ r)

theorem Canonical.value_lt {m : ℕ} {e : ℤ} (h : Canonical m e) (he : e ≤ 971) :
    (m : ℚ) * 2 ^ e < 2 ^ (1024 : ℤ) := by
  have hm : (m : ℚ) < 2 ^ (53 : ℤ) := by exact_mod_cast h.lt
  calc (m : ℚ) * 2 ^ e < 2 ^ (53 : ℤ) * 2 ^ e := by gcongr
    _ ≤ 2 ^ (53 : ℤ) * 2 ^ (971 : ℤ) := by gcongr; norm_num
    _ = 2 ^ (1024 : ℤ) := (zpow_add₀ two_ne_zero ..).symm

namespace HasValue

variable {x : UnpackedFloat} {v : ℚ}

theorem representable (h : HasValue x v) : Representable v := by
  cases h with
  | zero => exact ⟨0, 0, by norm_num, by norm_num, by simp⟩
  | finite hc he => exact hc.representable

theorem lt (h : HasValue x v) : v < 2 ^ (1024 : ℤ) := by
  cases h with
  | zero => positivity
  | finite hc he => exact hc.value_lt he

theorem isFinite (h : HasValue x v) : x.isFinite = true := by cases h <;> rfl

/-- A value survives packing. -/
theorem pack (h : HasValue x v) : Valued (.ofModel (.pack x)) v := by
  cases h with
  | zero =>
    change HasValue (Float.Model.pack _).unpack _
    rw [unpack_pack_zero]
    exact .zero
  | finite hc he =>
    change HasValue (Float.Model.pack _).unpack _
    rw [unpack_pack_finite hc he]
    exact .finite hc he

end HasValue

theorem Rounded.roundsTo {v : ℚ} {u : UnpackedFloat} (h : Rounded v .positive u) :
    RoundsTo v (.ofModel (.pack u)) := by
  cases h with
  | zero h => exact ⟨0, h, .inl HasValue.zero.pack⟩
  | @finite m e hm hc h =>
    refine ⟨_, h, ?_⟩
    rcases le_or_gt e 971 with he | he
    · exact .inl (HasValue.finite hc he).pack
    · refine .inr ⟨unpack_pack_overflow he, ?_⟩
      have hfull : (2 : ℚ) ^ (52 : ℤ) ≤ m := by exact_mod_cast hc.full.resolve_right (by omega)
      calc (2 : ℚ) ^ (1024 : ℤ) = 2 ^ (52 : ℤ) * 2 ^ (972 : ℤ) := zpow_add₀ two_ne_zero 52 972
        _ ≤ (m : ℚ) * 2 ^ e :=
          mul_le_mul hfull (zpow_le_zpow_right₀ one_le_two he) (by positivity) (by positivity)

/-- Canonical numbers are ordered by their exponents first. -/
theorem Canonical.lt_iff {m m' : ℕ} {e e' : ℤ} (h : Canonical m e) (h' : Canonical m' e') :
    (m : ℚ) * 2 ^ e < m' * 2 ^ e' ↔ e < e' ∨ e = e' ∧ m < m' := by
  have key {m m' : ℕ} {e e' : ℤ} (h : Canonical m e) (h' : Canonical m' e') (hlt : e < e') :
      (m : ℚ) * 2 ^ e < m' * 2 ^ e' := by
    have hm : (m : ℚ) < 2 ^ 53 := by exact_mod_cast h.lt
    have hm' : (2 : ℚ) ^ 52 ≤ m' := by
      exact_mod_cast h'.full.resolve_right (by have := h.le; omega)
    calc (m : ℚ) * 2 ^ e < 2 ^ 53 * 2 ^ e := by gcongr
      _ = 2 ^ 52 * 2 ^ (e + 1) := by rw [zpow_add_one₀ two_ne_zero]; ring
      _ ≤ m' * 2 ^ e' :=
        mul_le_mul hm' (zpow_le_zpow_right₀ one_le_two hlt) (by positivity) (by positivity)
  rcases lt_trichotomy e e' with hlt | rfl | hgt
  · exact iff_of_true (key h h' hlt) (.inl hlt)
  · rw [mul_lt_mul_iff_left₀ (by positivity), Nat.cast_lt]
    simp
  · exact iff_of_false (key h' h hgt).not_gt (by omega)

namespace HasValue

variable {x y : UnpackedFloat} {v w : ℚ}

theorem compare_eq_some (hx : HasValue x v) (hy : HasValue y w) :
    (x.compare y = some .lt ↔ v < w) ∧ (x.compare y = some .gt ↔ w < v) ∧ x.compare y ≠ none := by
  cases hx with
  | zero =>
    cases hy with
    | zero => simp [UnpackedFloat.compare]
    | @finite m e hm hc he =>
      have : (0 : ℚ) < m * 2 ^ e := by positivity
      simp [UnpackedFloat.compare, this, this.le]
  | @finite m e hm hc he =>
    have hpos : (0 : ℚ) < m * 2 ^ e := by positivity
    cases hy with
    | zero => simp [UnpackedFloat.compare, hpos, hpos.le]
    | @finite m' e' hm' hc' he' =>
      rw [hc.lt_iff hc', hc'.lt_iff hc]
      simp only [UnpackedFloat.compare, Option.some.injEq, Ordering.then_eq_lt, Ordering.then_eq_gt,
        compare_lt_iff_lt, compare_gt_iff_gt, compare_eq_iff_eq]
      exact ⟨trivial, by rw [eq_comm], by simp⟩

theorem lt_iff (hx : HasValue x v) (hy : HasValue y w) : x.lt y = true ↔ v < w := by
  rw [UnpackedFloat.lt, beq_iff_eq]
  exact (hx.compare_eq_some hy).1

theorem le_iff (hx : HasValue x v) (hy : HasValue y w) : x.le y = true ↔ v ≤ w := by
  obtain ⟨hlt, hgt, hne⟩ := hx.compare_eq_some hy
  rw [UnpackedFloat.le, ← not_lt, ← hgt]
  rcases h : x.compare y with _ | _ | _ | _
  · exact absurd h hne
  all_goals simp

end HasValue

namespace Valued

variable {x y : Float} {v w : ℚ}

theorem representable (h : Valued x v) : Representable v := HasValue.representable h

theorem nonneg (h : Valued x v) : 0 ≤ v := h.representable.nonneg

theorem lt (h : Valued x v) : v < 2 ^ (1024 : ℤ) := HasValue.lt h

theorem lt_iff (hx : Valued x v) (hy : Valued y w) : x < y ↔ v < w := by
  rw [← HasValue.lt_iff hx hy]
  exact decide_eq_true_iff

theorem le_iff (hx : Valued x v) (hy : Valued y w) : x ≤ y ↔ v ≤ w := by
  rw [← HasValue.le_iff hx hy]
  exact decide_eq_true_iff

theorem isFinite (h : Valued x v) : x.isFinite = true := HasValue.isFinite h

/-- A finite double has a value unless it is below zero. -/
theorem exists_of_le (hf : x.isFinite = true)
    (hle : UnpackedFloat.le (.zero .positive) x.toModel.unpack = true) : ∃ v, Valued x v := by
  rcases unpack_of_isFinite hf with ⟨s, hu⟩ | ⟨s, m, e, hm, hu⟩
  · exact ⟨0, by rw [Valued, hu]; exact .zero⟩
  · cases s with
    | negative => rw [hu] at hle; cases hle
    | positive =>
      obtain ⟨hc, he⟩ := canonical_of_unpack hu
      exact ⟨_, by rw [Valued, hu]; exact .finite hc he⟩

end Valued

end Oscillator.Double
