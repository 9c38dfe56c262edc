import Oscillator.Proofs.Expansion.Affine
import Oscillator.Proofs.Expansion.Merging
import Oscillator.Proofs.Expansion.Symbols
import Oscillator.Resolution.Textual

/-! # Values for the symbols of terms

A term gets one and the same value for each symbol that it names. As long as two factors name different
symbols, it makes no difference whether they get the value before they are multiplied or
afterwards, and the same holds for sums and their powers.
-/
namespace Oscillator

open Exact Textual

namespace Exact

protected theorem mul_assoc (a b c : Exact) : a * b * c = a * (b * c) := by
  cases a <;> cases b <;> cases c <;> simp [mul_assoc]

protected theorem mul_mul_mul_comm (a b c d : Exact) : a * b * (c * d) = a * c * (b * d) := by
  cases a <;> cases b <;> cases c <;> cases d <;> simp [mul_mul_mul_comm]

end Exact

namespace Monomial

variable {p : ℝ} {a b : Monomial Exact} {left left' right right' ts us : List (Monomial Exact)}

theorem foldl_mul (c : Exact) (names : Names) :
    names.foldl (fun x _ => x * real p) c = c * real (p ^ names.length) := by
  induction names generalizing c with
  | nil => cases c <;> simp
  | cons name names ih =>
    rw [List.foldl_cons, ih, Exact.mul_assoc, real_mul, List.length_cons, pow_succ']

/-- Whether every symbol of a product counts as often as it is a factor, for the value `p` of symbols. -/
def CountsAll (p : ℝ) (a b : Monomial Exact) : Prop :=
  p = 1 ∨ b.symbols.Nodup ∧ a.symbols.Disjoint b.symbols

theorem CountsAll.pow_length (h : CountsAll p a b) :
    p ^ (a.symbols.union b.symbols).length = p ^ a.symbols.length * p ^ b.symbols.length := by
  rcases h with rfl | ⟨hnodup, hdisjoint⟩
  · rw [one_pow, one_pow, one_pow, one_mul]
  · rw [Names.length_union hnodup hdisjoint, pow_add]

theorem CountsAll.substitute_times (h : CountsAll p a b) :
    substitute (real p) (a.times b) = (substitute (real p) a).times (substitute (real p) b) := by
  simp only [substitute, times, foldl_mul, h.pow_length, ← real_mul, Exact.mul_mul_mul_comm]
  rfl

theorem keptRow_substitute (h : ∀ b ∈ right, CountsAll p a b) :
    (keptRow a right).map (substitute (real p)) =
      keptRow (substitute (real p) a) (right.map (substitute (real p))) := by
  rw [keptRow, keptRow, List.map_filterMap, List.filterMap_map]
  refine List.filterMap_congr fun b hb => ?_
  rw [Function.comp_apply]
  by_cases hboth : (a.oscillation.isSome && b.oscillation.isSome) = true
  · rw [if_pos hboth]
    exact (if_pos hboth).symm
  · rw [if_neg hboth, Option.map_some, (h b hb).substitute_times]
    exact (if_neg hboth).symm

theorem kept_substitute (h : ∀ a ∈ left, ∀ b ∈ right, CountsAll p a b) :
    (kept left right).map (substitute (real p)) =
      kept (left.map (substitute (real p))) (right.map (substitute (real p))) := by
  rw [kept, kept, List.map_flatMap, List.flatMap_map]
  exact List.flatMap_congr fun a ha => keptRow_substitute (h a ha)

theorem oscillates_substitute : Oscillates (ts.map (substitute (real p))) ↔ Oscillates ts := by
  simp [Oscillates, substitute]

theorem substitute_of_nil {m : Monomial Exact} (h : m.symbols = []) (x : Exact) : substitute x m = m := by
  cases m
  subst h
  rfl

/-- With the value `p` for symbols, the first sum has the terms of the second one, up to adding up. -/
def Reduces (p : ℝ) (ts us : List (Monomial Exact)) : Prop := Merges (ts.map (substitute (real p))) us

theorem Reduces.of_nil (h : ∀ m ∈ ts, m.symbols = []) : Reduces p ts ts := by
  have hts : ts.map (substitute (real p)) = ts.map id :=
    List.map_congr_left fun m hm => substitute_of_nil (h m hm) (real p)
  rw [Reduces, hts, List.map_id]
  exact .refl ts

theorem Reduces.append (hl : Reduces p left left') (hr : Reduces p right right') :
    Reduces p (left ++ right) (left' ++ right') := by
  rw [Reduces, List.map_append]
  exact Merges.append hl hr

theorem substitute_negate (m : Monomial Exact) :
    substitute (real p) m.negate = (substitute (real p) m).negate := by
  cases hc : m.coefficient <;> simp [substitute, negate, foldl_mul, hc]

theorem Reduces.negate (h : Reduces p ts us) : Reduces p (ts.map .negate) (us.map .negate) := by
  have hmap : (ts.map .negate).map (substitute (real p)) = (ts.map (substitute (real p))).map .negate := by
    rw [List.map_map, List.map_map]
    exact List.map_congr_left fun m _ => substitute_negate m
  rw [Reduces, hmap]
  exact Merges.negate h

theorem Reduces.kept (hl : Reduces p left left') (hr : Reduces p right right')
    (h : ∀ a ∈ left, ∀ b ∈ right, CountsAll p a b) :
    Reduces p (kept left right) (kept left' right') := by
  rw [Reduces, kept_substitute h]
  exact Merges.kept hl hr

theorem Reduces.oscillates (h : Reduces p ts us) : Oscillates ts ↔ Oscillates us :=
  oscillates_substitute.symm.trans (Merges.oscillates h)

end Monomial

/-- Both attempts fail, or both succeed with related results. -/
inductive Follows {β γ : Type} (R : β → γ → Prop) :
    Except (Rejection Exact) β → Except (Rejection Exact) γ → Prop
  | ok {x : β} {y : γ} (h : R x y) : Follows R (.ok x) (.ok y)
  | error (reason reason' : Rejection Exact) : Follows R (.error reason) (.error reason')

theorem Follows.bind {β γ β' γ' : Type} {R : β → γ → Prop} {S : β' → γ' → Prop}
    {x : Except (Rejection Exact) β} {y : Except (Rejection Exact) γ}
    {f : β → Except (Rejection Exact) β'} {g : γ → Except (Rejection Exact) γ'} (h : Follows R x y)
    (hfg : ∀ a b, x = .ok a → y = .ok b → R a b → Follows S (f a) (g b)) :
    Follows S (x >>= f) (y >>= g) := by
  cases h with
  | ok hab => exact hfg _ _ rfl rfl hab
  | error reason reason' => exact .error reason reason'

theorem Follows.bind_same {β γ δ : Type} {R : γ → δ → Prop} {x : Except (Rejection Exact) β}
    {f : β → Except (Rejection Exact) γ} {g : β → Except (Rejection Exact) δ}
    (h : ∀ a, x = .ok a → Follows R (f a) (g a)) : Follows R (x >>= f) (x >>= g) := by
  cases x with
  | ok a => exact h a rfl
  | error reason => exact .error reason reason

theorem Follows.exists_ok {β γ : Type} {R : β → γ → Prop} {a : β} {y : Except (Rejection Exact) γ}
    (h : Follows R (.ok a) y) : ∃ b, y = .ok b ∧ R a b := by
  cases h with
  | ok hab => exact ⟨_, rfl, hab⟩

namespace Monomial

variable {p : ℝ} {base base' left left' right right' : List (Monomial Exact)}

theorem Reduces.mulSums (hl : Reduces p left left') (hr : Reduces p right right')
    (h : ∀ a ∈ left, ∀ b ∈ right, CountsAll p a b) :
    Follows (Reduces p) (mulSums left right) (mulSums left' right') := by
  by_cases hboth : Oscillates left ∧ Oscillates right
  · obtain ⟨reason, hreason⟩ := mulSums_eq_error hboth
    obtain ⟨reason', hreason'⟩ := mulSums_eq_error (hboth.imp hl.oscillates.mp hr.oscillates.mp)
    rw [hreason, hreason']
    exact .error reason reason'
  · have hboth' : ¬(Oscillates left' ∧ Oscillates right') :=
      fun h => hboth (h.imp hl.oscillates.mpr hr.oscillates.mpr)
    rw [mulSums_eq_kept hboth, mulSums_eq_kept hboth']
    exact .ok (hl.kept hr h)

/-- A base whose symbols stand in a term of a power of it only once. -/
theorem Reduces.powSum {n : ℕ} (h : Reduces p base base')
    (hcounts : p = 1 ∨ n ≤ 1 ∧ (∀ m ∈ base, m.symbols.Nodup) ∨ ∀ m ∈ base, m.symbols = []) :
    Follows (Reduces p) (powSum base n) (powSum base' n) := by
  induction n with
  | zero => exact .ok (.of_nil (List.forall_mem_singleton.mpr rfl))
  | succ n ih =>
    have ih := ih (hcounts.imp_right (Or.imp_left (And.imp_left (by omega))))
    refine ih.bind fun ts us hts _ hsum => hsum.mulSums h fun a ha b hb => ?_
    rcases hcounts with hp | ⟨hn, hnodup⟩ | hnil
    · exact .inl hp
    · obtain rfl : n = 0 := by omega
      cases hts
      rw [List.mem_singleton.mp ha]
      exact .inr ⟨hnodup b hb, List.disjoint_nil_left _⟩
    · rw [CountsAll, hnil b hb]
      exact .inr ⟨List.nodup_nil, List.disjoint_nil_right _⟩

theorem constant_times (c d : Exact) : (constant c).times (constant d) = constant (c * d) := by
  have hrate : (0 : Exact) + 0 = 0 := by rw [zero_eq, real_add, add_zero]
  exact congrArg (fun rate => (⟨c * d, rate, 0, none, []⟩ : Monomial Exact)) hrate

/-- Sums of constants can be multiplied, and the powers are sums of constants. -/
theorem exists_powSum_constants (h : ∀ m ∈ base, ∃ c, m = constant c) (n : ℕ) :
    ∃ ts, powSum base n = .ok ts ∧ ∀ m ∈ ts, ∃ c, m = constant c := by
  induction n with
  | zero => exact ⟨_, rfl, List.forall_mem_singleton.mpr ⟨1, rfl⟩⟩
  | succ n ih =>
    obtain ⟨ts, hts, hconstant⟩ := ih
    obtain ⟨us, hus⟩ := exists_products ts fun b hb => by
      obtain ⟨c, rfl⟩ := h b hb
      rfl
    refine ⟨us, powSum_succ_eq_ok.mpr ⟨ts, hts, hus⟩, fun m hm => ?_⟩
    obtain ⟨a, ha, b, hb, hab⟩ := exists_factors hus hm
    obtain ⟨c, rfl⟩ := hconstant a ha
    obtain ⟨d, rfl⟩ := h b hb
    obtain ⟨-, rfl⟩ := mul_eq_ok.mp hab
    exact ⟨c * d, constant_times c d⟩

theorem substitute_of_isConstant {m : Monomial Exact} (h : m.isConstant = true) (x : Exact) :
    ∃ c, substitute x m = constant c := by
  simp only [isConstant, Bool.and_eq_true, beq_iff_eq, Option.isNone_iff_eq_none] at h
  obtain ⟨⟨hrate, htime⟩, hosc⟩ := h
  rw [zero_eq, beq_real_iff] at hrate
  refine ⟨(substitute x m).coefficient, ?_⟩
  rw [substitute, hrate, htime, hosc, constant, zero_eq]

theorem exists_powSum_of_isConstant {k : ℕ} {ts ts' : List (Monomial Exact)} (h : Reduces p ts ts')
    (hconstant : ∀ m ∈ ts, m.isConstant = true)
    (hcounts : p = 1 ∨ k ≤ 1 ∧ (∀ m ∈ ts, m.symbols.Nodup) ∨ ∀ m ∈ ts, m.symbols = []) :
    ∃ us us', powSum ts k = .ok us ∧ powSum ts' k = .ok us' ∧ Reduces p us us' ∧
      ∀ m ∈ us', ∃ c, m = constant c := by
  have hconstant' : ∀ m ∈ ts', ∃ c, m = constant c := by
    refine Merges.forall_mem h ?_ (List.forall_mem_map.mpr fun m hm =>
      substitute_of_isConstant (hconstant m hm) (real p))
    rintro m d ⟨c, rfl⟩
    exact ⟨d, rfl⟩
  obtain ⟨us', hus', hpowers⟩ := exists_powSum_constants hconstant' k
  have hsum := h.powSum hcounts
  rw [hus'] at hsum
  cases hus : powSum ts k with
  | error reason =>
    rw [hus] at hsum
    cases hsum
  | ok us =>
    rw [hus] at hsum
    cases hsum with
    | ok hsum => exact ⟨us, us', rfl, hus', hsum, hpowers⟩

theorem nonzero_reciprocal {d r : Monomial Exact} (h : d.reciprocal = .ok r) : nonzero [r] = [r] := by
  obtain ⟨-, -, hc, rfl⟩ := reciprocal_eq_ok.mp h
  refine nonzero_eq_self.mpr (List.forall_mem_singleton.mpr (bne_zero_iff.mpr fun hquotient => ?_))
  obtain ⟨x, y, hx, -, hy, hxy⟩ := div_eq_real.mp hquotient
  rw [one_eq, Exact.real.injEq] at hx
  rw [← hx] at hxy
  exact one_div_ne_zero hy hxy

theorem follows_nonzero {x y : Except (Rejection Exact) (List (Monomial Exact))}
    (h : Follows (Reduces p) x y) (hx : ∀ ts, x = .ok ts → nonzero ts = ts)
    (hy : ∀ ts, y = .ok ts → nonzero ts = ts) :
    Follows (Reduces p) (x >>= fun ts => .ok (nonzero ts)) (y >>= fun ts => .ok (nonzero ts)) := by
  refine h.bind fun ts us hts hus hreduces => ?_
  rw [hx ts hts, hy us hus]
  exact .ok hreduces

end Monomial

end Oscillator
