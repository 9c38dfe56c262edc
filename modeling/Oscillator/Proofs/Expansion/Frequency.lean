import Oscillator.Proofs.Exact.Numbers
import Oscillator.Proofs.Expansion.Leniency

/-! # Frequencies of an expansion

A wave of an expansion comes from a sine or a cosine of a linear reading that varies, and its
frequency is the size of the slope. Products, powers and quotients bring no other waves. So a frequency of
zero can mean that there is no wave.
-/
namespace Oscillator

variable {α : Type} [Arithmetic α]

namespace Monomial

/-- Every wave in a sum has the property `P`. -/
def EveryWave (P : Oscillation α → Prop) (ts : List (Monomial α)) : Prop :=
  ∀ m ∈ ts, ∀ o ∈ m.oscillation, P o

variable {P : Oscillation α → Prop} {left right base ts : List (Monomial α)} {m : Monomial α}

omit [Arithmetic α] in
theorem everyWave_singleton (h : m.oscillation = none) : EveryWave P [m] := by
  intro m' hm' o ho
  rw [List.mem_singleton.mp hm', h] at ho
  cases ho

theorem EveryWave.nonzero (h : EveryWave P ts) : EveryWave P (nonzero ts) :=
  fun m hm => h m (mem_nonzero.mp hm).1

omit [Arithmetic α] in
theorem EveryWave.append (hl : EveryWave P left) (hr : EveryWave P right) :
    EveryWave P (left ++ right) :=
  List.forall_mem_append.mpr ⟨hl, hr⟩

theorem EveryWave.negate (h : EveryWave P ts) : EveryWave P (ts.map .negate) := by
  intro m hm
  obtain ⟨a, ha, rfl⟩ := List.mem_map.mp hm
  exact h a ha

/-- The wave of a product is that of a factor. -/
theorem EveryWave.products (hl : EveryWave P left) (hr : EveryWave P right)
    (h : products left right = ts.map .ok) : EveryWave P ts := by
  intro m hm o ho
  obtain ⟨a, ha, b, hb, hab⟩ := exists_factors h hm
  obtain ⟨-, rfl⟩ := mul_eq_ok.mp hab
  change (a.oscillation <|> b.oscillation) = some o at ho
  cases hosc : a.oscillation with
  | none =>
    rw [hosc] at ho
    exact hr b hb o ho
  | some o' =>
    rw [hosc] at ho
    cases ho
    exact hl a ha _ hosc

theorem EveryWave.powSum {n : Nat} (hb : EveryWave P base) (h : powSum base n = .ok ts) :
    EveryWave P ts := by
  induction n generalizing ts with
  | zero =>
    cases h
    exact everyWave_singleton rfl
  | succ n ih =>
    obtain ⟨a, ha, hts⟩ := powSum_succ_eq_ok.mp h
    exact (ih ha).products hb hts

end Monomial

namespace Expr

open Monomial

variable {e : Expr α} {f : Func} {p : Linear α} {ts : List (Monomial α)} {P : Oscillation α → Prop}

theorem expandCall_everyWave
    (hP : ∀ p : Linear α, p.isConstant = false → ∀ wave, P ⟨wave, Arithmetic.abs p.slope⟩)
    (h : expandCall f p = .ok ts) : EveryWave P ts := by
  by_cases hf : f = .exp
  · subst hf
    obtain rfl := expandCall_exp.mp h
    exact everyWave_singleton rfl
  cases hp : p.isConstant with
  | true =>
    obtain ⟨-, rfl⟩ := (expandCall_of_isConstant hp hf).mp h
    exact everyWave_singleton rfl
  | false =>
    have hwave (c d : α) (first second : Wave) : EveryWave P
        [.oscillating c first (Arithmetic.abs p.slope),
          .oscillating d second (Arithmetic.abs p.slope)] := by
      intro m hm o ho
      rcases List.mem_pair.mp hm with rfl | rfl
      · cases ho
        exact hP p hp first
      · cases ho
        exact hP p hp second
    rcases (expandCall_of_varying hp hf).mp h with ⟨-, rfl⟩ | ⟨-, rfl⟩
    · exact hwave _ _ _ _
    · exact hwave _ _ _ _

/-- What holds of the waves of varying arguments holds of every wave in an expansion. -/
theorem expand_everyWave
    (hP : ∀ p : Linear α, p.isConstant = false → ∀ wave, P ⟨wave, Arithmetic.abs p.slope⟩)
    (h : e.expand = .ok ts) : EveryWave P ts := by
  induction e generalizing ts with
  | number x =>
    rw [expand_number] at h
    cases h
    exact (everyWave_singleton rfl).nonzero
  | symbol name =>
    rw [expand_symbol] at h
    cases h
    refine EveryWave.nonzero (everyWave_singleton ?_)
    split
    · rfl
    · split <;> rfl
  | negate e ih =>
    obtain ⟨a, ha, rfl⟩ := expand_negate.mp h
    exact (ih ha).negate
  | binary op left right ihl ihr =>
    cases op with
    | add =>
      obtain ⟨a, b, ha, hb, rfl⟩ := expand_add.mp h
      exact (ihl ha).append (ihr hb)
    | sub =>
      obtain ⟨a, b, ha, hb, rfl⟩ := expand_sub.mp h
      exact (ihl ha).append (ihr hb).negate
    | mul =>
      obtain ⟨a, b, c, ha, hb, hc, rfl⟩ := expand_mul.mp h
      exact ((ihl ha).products (ihr hb) hc).nonzero
    | div =>
      obtain ⟨d, r, a, c, -, hr, ha, hc, rfl⟩ := expand_div.mp h
      obtain ⟨-, -, -, rfl⟩ := reciprocal_eq_ok.mp hr
      exact ((ihl ha).products (everyWave_singleton rfl) hc).nonzero
    | pow =>
      obtain ⟨n, -, ⟨b, -, rfl⟩ | ⟨-, -, -, -, a, c, ha, hc, rfl⟩⟩ := expand_pow.mp h
      · exact (everyWave_singleton rfl).nonzero
      · exact ((ihl ha).powSum hc).nonzero
  | call f arg =>
    obtain ⟨p, a, -, ha, rfl⟩ := expand_call.mp h
    exact (expandCall_everyWave hP ha).nonzero
  | unknown command =>
    rw [expand_unknown] at h
    cases h

/-- A frequency that is a real number is positive. -/
theorem expand_frequency_pos {e : Expr Exact} {ts : List (Monomial Exact)} (h : e.expand = .ok ts) :
    EveryWave (fun o => ∀ w : ℝ, o.frequency = .real w → 0 < w) ts := by
  refine expand_everyWave (fun p hp wave w hw => ?_) h
  obtain ⟨slope, intercept⟩ := p
  cases slope with
  | undefined => cases hw
  | real a =>
    cases hw
    refine abs_pos.mpr fun ha => ?_
    rw [ha] at hp
    simp [Linear.isConstant] at hp

end Expr

end Oscillator
