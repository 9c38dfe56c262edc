import Oscillator.Proofs.Expansion.Merging
import Oscillator.Proofs.Reading.Unreported

/-! # Reading of like terms

The readers of a closed form choose terms by what they are apart from their coefficients, and add the
coefficients of like terms up. So they read the same where like terms were added up before.
-/
namespace Oscillator

open Exact

namespace Monomial

variable {β : Type} {ts us : List (Monomial Exact)} {P : Monomial Exact → Bool}

/-- What does not look at coefficients. -/
def IgnoresCoefficient (f : Monomial Exact → β) : Prop := ∀ m c, f (m.withCoefficient c) = f m

theorem Merges.filter (h : Merges ts us) (hP : IgnoresCoefficient P) :
    Merges (ts.filter P) (us.filter P) := by
  refine h.lift fun ts us hstep => ?_
  obtain ⟨before, between, after, m, c⟩ := hstep
  have hother (d : Exact) : P (m.withCoefficient d) = P m := hP m d
  rw [List.filter_append, List.filter_append]
  cases hm : P m with
  | true =>
    rw [List.filter_cons_of_pos hm, List.filter_cons_of_pos ((hother _).trans hm), List.filter_append,
      List.filter_append, List.filter_cons_of_pos ((hother _).trans hm)]
    exact (MergeStep.mk _ _ _ m c).merges
  | false =>
    have hneg : ¬P m = true := Bool.eq_false_iff.mp hm
    rw [List.filter_cons_of_neg hneg, List.filter_cons_of_neg ((hother _).trans_ne hneg),
      List.filter_append, List.filter_append, List.filter_cons_of_neg ((hother _).trans_ne hneg)]
    exact .refl _

theorem Merges.eq_of_step {f : List (Monomial Exact) → β} (h : Merges ts us)
    (hf : ∀ ts us, MergeStep ts us → f ts = f us) : f ts = f us := by
  induction h with
  | refl => rfl
  | tail _ hstep ih => exact ih.trans (hf _ _ hstep)

theorem Merges.find?_eq {f : Monomial Exact → β} (h : Merges ts us) (hP : IgnoresCoefficient P)
    (hf : IgnoresCoefficient f) : (ts.find? P).map f = (us.find? P).map f := by
  rw [← List.head?_filter, ← List.head?_filter]
  refine (h.filter hP).eq_of_step (f := fun ts => ts.head?.map f) fun ts us hstep => ?_
  obtain ⟨before, between, after, m, c⟩ := hstep
  cases before with
  | nil => exact congrArg some (hf m _).symm
  | cons b before => rfl

theorem Merges.any_eq (h : Merges ts us) (hP : IgnoresCoefficient P) : ts.any P = us.any P := by
  refine h.eq_of_step (f := fun ts => ts.any P) fun ts us hstep => ?_
  obtain ⟨before, between, after, m, c⟩ := hstep
  have hother (d : Exact) : P (m.withCoefficient d) = P m := hP m d
  simp only [List.any_append, List.any_cons, hother]
  cases P m <;> simp

/-- A reader that has met a term can take a like one in at any later time: it may be read at once, with
the first one. -/
theorem foldl_mergeStep {f : β → Monomial Exact → β} {m : Monomial Exact} {c : Exact} {M : β → Prop}
    (hmet : ∀ s, M (f s m)) (hkeep : ∀ s x, M s → M (f s x))
    (hswap : ∀ s x, M s → f (f s x) (m.withCoefficient c) = f (f s (m.withCoefficient c)) x)
    (hadd : ∀ s, f (f s m) (m.withCoefficient c) = f s (m.withCoefficient (m.coefficient + c)))
    (before between after : List (Monomial Exact)) (s : β) :
    (before ++ m :: (between ++ m.withCoefficient c :: after)).foldl f s =
      (before ++ m.withCoefficient (m.coefficient + c) :: (between ++ after)).foldl f s := by
  have hmove (s : β) (hs : M s) : (between ++ m.withCoefficient c :: after).foldl f s =
      (between ++ after).foldl f (f s (m.withCoefficient c)) := by
    induction between generalizing s with
    | nil => rfl
    | cons x between ih =>
      change (between ++ _).foldl f (f s x) = (between ++ after).foldl f _
      rw [ih (f s x) (hkeep s x hs), hswap s x hs]
  rw [List.foldl_append, List.foldl_cons, hmove _ (hmet _), hadd]
  simp only [List.foldl_append, List.foldl_cons]

theorem Merges.sum_coefficients_eq (h : Merges ts us) :
    (ts.map (·.coefficient)).foldl (· + ·) 0 = (us.map (·.coefficient)).foldl (· + ·) 0 := by
  rw [List.foldl_map, List.foldl_map]
  refine h.eq_of_step (f := List.foldl _ 0) fun ts us hstep => ?_
  obtain ⟨before, between, after, m, c⟩ := hstep
  exact foldl_mergeStep (M := fun _ => True) (fun _ => trivial) (fun _ _ _ => trivial)
    (fun s x _ => Exact.add_right_comm s x.coefficient c) (fun s => Exact.add_assoc s m.coefficient c)
    before between after 0

end Monomial

open Monomial

namespace Textual

variable {ts us : List (Monomial Exact)}

namespace Waves

theorem isSome_frequency_add {α : Type} [Arithmetic α] {w : Waves α} {m : Monomial α}
    (h : w.frequency.isSome = true ∨ m.oscillation.isSome = true) : (w.add m).frequency.isSome = true := by
  cases hm : m.oscillation with
  | none => simpa [add, hm] using h
  | some o =>
    obtain ⟨wave, frequency⟩ := o
    cases wave <;> simp only [add, hm] <;> split_ifs <;> rfl

theorem add_swap {w : Waves Exact} (h : w.frequency.isSome = true) (a b : Monomial Exact) :
    (w.add a).add b = (w.add b).add a := by
  obtain ⟨frequency, cosine, sine, found⟩ := w
  obtain ⟨frequency, rfl⟩ := Option.isSome_iff_exists.mp h
  have hcosine := Exact.add_right_comm cosine a.coefficient b.coefficient
  have hsine := Exact.add_right_comm sine a.coefficient b.coefficient
  cases ha : a.oscillation with
  | none => simp only [add, ha]
  | some o =>
    cases hb : b.oscillation with
    | none => simp only [add, hb]
    | some o' =>
      obtain ⟨wave, v⟩ := o
      obtain ⟨wave', v'⟩ := o'
      cases hv : sameRate frequency v <;> cases hv' : sameRate frequency v' <;> cases wave <;>
        cases wave' <;> simp [add, ha, hb, hv, hv', hcosine, hsine]

theorem add_add {m : Monomial Exact} {c : Exact} (w : Waves Exact) :
    (w.add m).add (m.withCoefficient c) = w.add (m.withCoefficient (m.coefficient + c)) := by
  have hcosine := Exact.add_assoc w.cosine m.coefficient c
  have hsine := Exact.add_assoc w.sine m.coefficient c
  cases hm : m.oscillation with
  | none => simp only [add, oscillation_withCoefficient, hm]
  | some o =>
    obtain ⟨wave, v⟩ := o
    cases hv : sameRate (w.frequency.getD v) v <;> cases wave <;>
      simp [add, hm, hv, withCoefficient, hcosine, hsine]

theorem ofTerms_merges (h : Merges ts us) : ofTerms ts = ofTerms us := by
  refine h.eq_of_step fun ts us hstep => ?_
  obtain ⟨before, between, after, m, c⟩ := hstep
  cases hm : m.oscillation with
  | none =>
    have hadd (w : Waves Exact) (d : Exact) : w.add (m.withCoefficient d) = w := by
      rw [add, oscillation_withCoefficient, hm]
    exact foldl_mergeStep (M := fun _ => True) (fun _ => trivial) (fun _ _ _ => trivial)
      (fun w x _ => by rw [hadd, hadd]) add_add before between after Waves.none
  | some o =>
    have hsome : m.oscillation.isSome = true := Option.isSome_of_eq_some hm
    exact foldl_mergeStep (M := fun w => w.frequency.isSome = true)
      (fun _ => isSome_frequency_add (.inr hsome)) (fun _ _ h => isSome_frequency_add (.inl h))
      (fun _ x h => add_swap h x _) add_add before between after Waves.none

end Waves

section

variable {α : Type} [Arithmetic α]

/-- Adds a term to the first exponential of its rate, or starts one behind the others if there is room for
more. -/
def putExponential : ℕ → List (Exponential α) → Monomial α → List (Exponential α)
  | k, [], m => if 0 < k then [⟨m.rate, m.coefficient⟩] else []
  | k, e :: es, m =>
    if sameRate e.rate m.rate then { e with coefficient := e.coefficient + m.coefficient } :: es
    else e :: putExponential (k - 1) es m

theorem putExponential_eq (k : ℕ) (es : List (Exponential α)) (m : Monomial α) :
    putExponential k es m = match es.findIdx? fun e => sameRate e.rate m.rate with
      | some i => es.modify i fun e => { e with coefficient := e.coefficient + m.coefficient }
      | none => if es.length < k then es ++ [⟨m.rate, m.coefficient⟩] else es := by
  induction es generalizing k with
  | nil => rfl
  | cons e es ih =>
    rw [putExponential, List.findIdx?_cons]
    cases hsame : sameRate e.rate m.rate with
    | true => rfl
    | false =>
      rw [if_neg Bool.false_ne_true, if_neg Bool.false_ne_true, ih]
      cases hfound : es.findIdx? fun e => sameRate e.rate m.rate with
      | some i => rfl
      | none =>
        have hroom : (e :: es).length < k ↔ es.length < k - 1 := by
          rw [List.length_cons]
          omega
        simp only [Option.map_none, hroom]
        split_ifs <;> rfl

theorem addExponential_eq : addExponential (α := α) = putExponential 2 := by
  funext es m
  rw [putExponential_eq]
  rfl

/-- Whether a term of a rate starts no exponential any more. -/
def Settled (rate : α) : ℕ → List (Exponential α) → Prop
  | k, [] => k = 0
  | k, e :: es => sameRate e.rate rate = true ∨ Settled rate (k - 1) es

theorem settled_put_self {m : Monomial α} (h : sameRate m.rate m.rate = true) (k : ℕ)
    (es : List (Exponential α)) : Settled m.rate k (putExponential k es m) := by
  induction es generalizing k with
  | nil =>
    rw [putExponential]
    split_ifs with hk
    · exact .inl h
    · exact Nat.eq_zero_of_not_pos hk
  | cons e es ih =>
    rw [putExponential]
    split_ifs with hsame
    · exact .inl hsame
    · exact .inr (ih (k - 1))

theorem Settled.put {rate : α} {k : ℕ} {es : List (Exponential α)} (h : Settled rate k es) (m : Monomial α) :
    Settled rate k (putExponential k es m) := by
  induction es generalizing k with
  | nil =>
    rw [putExponential, if_neg (Nat.not_lt.mpr h.le)]
    exact h
  | cons e es ih =>
    rw [putExponential]
    split_ifs with hsame
    · exact h
    · exact h.imp_right ih

end

/-- Terms of a rate that starts no exponential any more can be put before or after another one. -/
theorem Settled.put_swap {b : Monomial Exact} {k : ℕ} {es : List (Exponential Exact)}
    (h : Settled b.rate k es) (a : Monomial Exact) :
    putExponential k (putExponential k es a) b = putExponential k (putExponential k es b) a := by
  induction es generalizing k with
  | nil =>
    obtain rfl : k = 0 := h
    rfl
  | cons e es ih =>
    cases ha : sameRate e.rate a.rate <;> cases hb : sameRate e.rate b.rate
    · have hes := ih (h.resolve_left (Bool.eq_false_iff.mp hb))
      simp [putExponential, ha, hb, hes]
    · simp [putExponential, ha, hb]
    · simp [putExponential, ha, hb]
    · simp [putExponential, ha, hb, Exact.add_right_comm e.coefficient a.coefficient]

theorem put_put {m : Monomial Exact} (h : sameRate m.rate m.rate = true) (c : Exact) (k : ℕ)
    (es : List (Exponential Exact)) :
    putExponential k (putExponential k es m) (m.withCoefficient c) =
      putExponential k es (m.withCoefficient (m.coefficient + c)) := by
  induction es generalizing k with
  | nil => by_cases hk : 0 < k <;> simp [putExponential, hk, withCoefficient, h]
  | cons e es ih =>
    have hes := ih (k - 1)
    have hrate (d : Exact) : (m.withCoefficient d).rate = m.rate := rfl
    cases hsame : sameRate e.rate m.rate with
    | true =>
      simp [putExponential, hsame, withCoefficient, Exact.add_assoc e.coefficient]
    | false => simp [putExponential, hrate, hsame, hes]

theorem foldl_addExponential_merges {ts us : List (Monomial Exact)} (h : Merges ts us)
    (hts : ∀ m ∈ ts, sameRate m.rate m.rate = true) :
    ts.foldl addExponential [] = us.foldl addExponential [] := by
  rw [addExponential_eq]
  induction h with
  | refl => rfl
  | @tail vs us hmerges hstep ih =>
    have hvs : ∀ m ∈ vs, sameRate m.rate m.rate = true :=
      Merges.forall_mem hmerges (fun _ _ hm => hm) hts
    rw [ih]
    obtain ⟨before, between, after, m, c⟩ := hstep
    have hm := hvs m (List.mem_append_right before List.mem_cons_self)
    exact foldl_mergeStep (c := c) (M := Settled m.rate 2) (settled_put_self hm 2)
      (fun _ x h => h.put x) (fun _ x h => Settled.put_swap (b := m.withCoefficient c) h x)
      (put_put hm c 2) before between after []

/-! The readers of each regime. -/

theorem decayRate?_merges (h : Merges ts us) (oscillating : Bool) :
    decayRate? ts oscillating = decayRate? us oscillating :=
  h.find?_eq (fun _ _ => rfl) fun _ _ => rfl

theorem steadyTerms_merges (h : Merges ts us) : Merges (steadyTerms ts) (steadyTerms us) :=
  h.filter fun _ _ => rfl

theorem decayingTerms_merges (h : Merges ts us) (alpha : Exact) :
    Merges (decayingTerms ts alpha) (decayingTerms us alpha) :=
  h.filter fun _ _ => rfl

variable {defaults : TextDefaults Exact}

theorem undamped_merges (h : Merges ts us) : undamped defaults ts = undamped defaults us := by
  rw [undamped, undamped, Waves.ofTerms_merges (steadyTerms_merges h)]

theorem underdamped_merges (h : Merges ts us) : underdamped defaults ts = underdamped defaults us := by
  simp only [underdamped, decayRate?_merges h, Waves.ofTerms_merges (decayingTerms_merges h _)]

theorem forced_merges (h : Merges ts us) : forced defaults ts = forced defaults us := by
  have hoffset := (h.filter (P := (·.isConstant)) fun _ _ => rfl).sum_coefficients_eq
  simp only [forced, decayRate?_merges h, Waves.ofTerms_merges (decayingTerms_merges h _),
    Waves.ofTerms_merges (steadyTerms_merges h), hoffset]

theorem critical_merges (h : Merges ts us) : critical defaults ts = critical defaults us := by
  have hstill : Merges (ts.filter (·.oscillation.isNone)) (us.filter (·.oscillation.isNone)) :=
    h.filter fun _ _ => rfl
  have hrate := hstill.find?_eq (P := fun m => decide (m.rate < 0)) (f := (-·.rate))
    (fun _ _ => rfl) fun _ _ => rfl
  have hdecaying (rate : Exact) := hstill.filter (P := fun m => sameRate (-m.rate) rate) fun _ _ => rfl
  have hsum (rate : Exact) (power : ℤ) :=
    ((hdecaying rate).filter (P := (·.timePower == power)) fun _ _ => rfl).sum_coefficients_eq
  have hfound (rate : Exact) :=
    (hdecaying rate).any_eq (P := fun m => m.timePower == 0 || m.timePower == 1) fun _ _ => rfl
  simp only [critical, hrate, hsum, hfound]

theorem overdamped_merges (h : Merges ts us) : overdamped defaults ts = overdamped defaults us := by
  have hdecaying := h.filter
    (P := fun m => decide (m.rate < 0) && m.timePower == 0 && m.oscillation.isNone) fun _ _ => rfl
  have hfound := foldl_addExponential_merges hdecaying fun m hm => by
    simp only [List.mem_filter, Bool.and_eq_true, decide_eq_true_eq] at hm
    cases hrate : m.rate with
    | real r => exact sameRate_self r
    | undefined =>
      rw [hrate] at hm
      exact absurd hm.2.1.1 (not_undefined_lt 0)
  simp only [overdamped, hfound]

theorem coefficients_merges (h : Merges ts us) (regime : Regime) (defaults : TextDefaults Exact) :
    coefficients regime defaults ts = coefficients regime defaults us := by
  cases regime with
  | undamped => exact undamped_merges h
  | underdamped => exact underdamped_merges h
  | forced => exact forced_merges h
  | critical => exact critical_merges h
  | overdamped => exact overdamped_merges h

end Textual

end Oscillator
