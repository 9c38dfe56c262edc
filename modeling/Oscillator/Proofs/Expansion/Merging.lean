import Mathlib.Logic.Relation
import Oscillator.Proofs.Expansion.Leniency
import Oscillator.Proofs.Expansion.Value

/-! # Like terms

Terms that differ in nothing but their coefficients can be added up into the first of them. A sum that
arises so from another one has the same terms in the same order of first appearance. Sums, opposites,
products and powers of sums keep this relation, as exact numbers can be added and multiplied in any
order.
-/
namespace Oscillator

namespace Exact

variable (a b c : Exact)

protected theorem add_assoc : a + b + c = a + (b + c) := by
  cases a <;> cases b <;> cases c <;> simp [add_assoc]

protected theorem add_right_comm : a + b + c = a + c + b := by
  cases a <;> cases b <;> cases c <;> simp [add_right_comm]

protected theorem add_left_comm : a + (b + c) = b + (a + c) := by
  cases a <;> cases b <;> cases c <;> simp [add_left_comm]

protected theorem neg_add : -(a + b) = -a + -b := by
  cases a <;> cases b <;> simp [add_comm]

protected theorem add_mul : (a + b) * c = a * c + b * c := by
  cases a <;> cases b <;> cases c <;> simp [add_mul]

protected theorem mul_add : a * (b + c) = a * b + a * c := by
  cases a <;> cases b <;> cases c <;> simp [mul_add]

end Exact

open Relation (ReflTransGen)

namespace Monomial

section

variable {α : Type}

/-- The same term with another coefficient. -/
def withCoefficient (m : Monomial α) (c : α) : Monomial α := { m with coefficient := c }

@[simp] theorem oscillation_withCoefficient (m : Monomial α) (c : α) :
    (m.withCoefficient c).oscillation = m.oscillation := rfl

/-- Whether there is a wave among the terms. -/
def Oscillates (ts : List (Monomial α)) : Prop := ∃ m ∈ ts, m.oscillation.isSome = true

variable [Arithmetic α]

/-- The product of two terms, as far as it is one. -/
def times (a b : Monomial α) : Monomial α :=
  ⟨a.coefficient * b.coefficient, a.rate + b.rate,
    Arithmetic.storePower α (a.timePower + b.timePower), a.oscillation <|> b.oscillation,
    a.symbols.union b.symbols⟩

/-- The products of a term with those terms that do not oscillate with it. -/
def keptRow (a : Monomial α) (right : List (Monomial α)) : List (Monomial α) :=
  right.filterMap fun b =>
    if (a.oscillation.isSome && b.oscillation.isSome) = true then none else some (a.times b)

def kept (left right : List (Monomial α)) : List (Monomial α) := left.flatMap (keptRow · right)

theorem toOption_mul (a b : Monomial α) : (a.mul b).toOption =
    if (a.oscillation.isSome && b.oscillation.isSome) = true then none else some (a.times b) := by
  rw [mul]
  split <;> rfl

theorem filterMap_products (left right : List (Monomial α)) :
    (products left right).filterMap Except.toOption = kept left right := by
  rw [products, List.filterMap_flatMap, kept]
  refine List.flatMap_congr fun a _ => ?_
  rw [List.filterMap_map, keptRow]
  exact List.filterMap_congr fun b _ => toOption_mul a b

omit [Arithmetic α] in
theorem not_both_oscillate {left right : List (Monomial α)} (h : ¬(Oscillates left ∧ Oscillates right))
    {a b : Monomial α} (ha : a ∈ left) (hb : b ∈ right) :
    ¬(a.oscillation.isSome && b.oscillation.isSome) = true := fun hboth =>
  have ⟨ha', hb'⟩ := Bool.and_eq_true_iff.mp hboth
  h ⟨⟨a, ha, ha'⟩, b, hb, hb'⟩

/-- Nothing is left out of a product of sums unless both have a wave. -/
theorem products_eq_kept {left right : List (Monomial α)} (h : ¬(Oscillates left ∧ Oscillates right)) :
    products left right = (kept left right).map .ok := by
  rw [products, kept, List.map_flatMap]
  refine List.flatMap_congr fun a ha => ?_
  rw [keptRow, List.map_filterMap, ← List.filterMap_eq_map]
  refine List.filterMap_congr fun b hb => ?_
  have hboth := not_both_oscillate h ha hb
  rw [if_neg hboth, Function.comp_apply, mul, if_neg hboth]
  rfl

theorem mulSums_eq_kept {left right : List (Monomial α)} (h : ¬(Oscillates left ∧ Oscillates right)) :
    mulSums left right = .ok (kept left right) := mulSums_eq_ok.mpr (products_eq_kept h)

/-- A product of sums fails only where both have a wave. -/
theorem mulSums_eq_error {left right : List (Monomial α)} (h : Oscillates left ∧ Oscillates right) :
    ∃ reason, mulSums left right = .error reason := by
  cases hsum : mulSums left right with
  | error reason => exact ⟨reason, rfl⟩
  | ok ts =>
    obtain ⟨⟨a, ha, hosc⟩, b, hb, hosc'⟩ := h
    obtain ⟨m, -, hm⟩ := mem_of_factors (mulSums_eq_ok.mp hsum) ha hb
    rcases (mul_eq_ok.mp hm).1 with h | h
    · rw [h] at hosc
      cases hosc
    · rw [h] at hosc'
      cases hosc'

theorem kept_append (left left' right : List (Monomial α)) :
    kept (left ++ left') right = kept left right ++ kept left' right := List.flatMap_append

theorem kept_cons (m : Monomial α) (left right : List (Monomial α)) :
    kept (m :: left) right = keptRow m right ++ kept left right := List.flatMap_cons

theorem keptRow_append (m : Monomial α) (right right' : List (Monomial α)) :
    keptRow m (right ++ right') = keptRow m right ++ keptRow m right' := List.filterMap_append

theorem keptRow_nil (m : Monomial α) : keptRow m [] = [] := rfl

theorem keptRow_cons_oscillating {m b : Monomial α}
    (h : (m.oscillation.isSome && b.oscillation.isSome) = true) (right : List (Monomial α)) :
    keptRow m (b :: right) = keptRow m right :=
  List.filterMap_cons_none (if_pos h)

theorem keptRow_cons_of_not {m b : Monomial α}
    (h : ¬(m.oscillation.isSome && b.oscillation.isSome) = true) (right : List (Monomial α)) :
    keptRow m (b :: right) = m.times b :: keptRow m right :=
  List.filterMap_cons_some (if_neg h)

end

/-- Two terms that differ in their coefficients only are added up into the first one. -/
inductive MergeStep : List (Monomial Exact) → List (Monomial Exact) → Prop
  | mk (before between after : List (Monomial Exact)) (m : Monomial Exact) (c : Exact) :
    MergeStep (before ++ m :: (between ++ m.withCoefficient c :: after))
      (before ++ m.withCoefficient (m.coefficient + c) :: (between ++ after))

/-- A sum arises from another one by adding up like terms. -/
def Merges : List (Monomial Exact) → List (Monomial Exact) → Prop := ReflTransGen MergeStep

variable {left left' right right' ts us : List (Monomial Exact)}

theorem Merges.refl (ts : List (Monomial Exact)) : Merges ts ts := ReflTransGen.refl

theorem Merges.trans {vs : List (Monomial Exact)} (h : Merges ts us) (h' : Merges us vs) :
    Merges ts vs := ReflTransGen.trans h h'

theorem MergeStep.merges (h : MergeStep ts us) : Merges ts us := ReflTransGen.single h

/-- What each step of adding up keeps is kept by all. -/
theorem Merges.lift {f : List (Monomial Exact) → List (Monomial Exact)} (h : Merges ts us)
    (hf : ∀ ts us, MergeStep ts us → Merges (f ts) (f us)) : Merges (f ts) (f us) := by
  induction h with
  | refl => exact .refl _
  | tail _ hstep ih => exact ih.trans (hf _ _ hstep)

theorem Merges.append_left (h : Merges right right') (left : List (Monomial Exact)) :
    Merges (left ++ right) (left ++ right') := by
  refine h.lift fun ts us hstep => MergeStep.merges ?_
  obtain ⟨before, between, after, m, c⟩ := hstep
  rw [← List.append_assoc, ← List.append_assoc]
  exact .mk (left ++ before) between after m c

theorem Merges.append_right (h : Merges left left') (right : List (Monomial Exact)) :
    Merges (left ++ right) (left' ++ right) := by
  refine h.lift (f := (· ++ right)) fun ts us hstep => MergeStep.merges ?_
  obtain ⟨before, between, after, m, c⟩ := hstep
  simp only [List.append_assoc, List.cons_append]
  exact .mk before between (after ++ right) m c

theorem Merges.append (hl : Merges left left') (hr : Merges right right') :
    Merges (left ++ right) (left' ++ right') :=
  (hl.append_right right).trans (hr.append_left left')

theorem Merges.negate (h : Merges ts us) : Merges (ts.map .negate) (us.map .negate) := by
  refine h.lift fun ts us hstep => MergeStep.merges ?_
  obtain ⟨before, between, after, m, c⟩ := hstep
  simp only [List.map_append, List.map_cons]
  have hsum : (m.withCoefficient (m.coefficient + c)).negate =
      m.negate.withCoefficient (m.negate.coefficient + -c) :=
    congrArg m.withCoefficient (Exact.neg_add m.coefficient c)
  rw [hsum]
  exact .mk (before.map .negate) (between.map .negate) (after.map .negate) m.negate (-c)

theorem Merges.oscillates (h : Merges ts us) : Oscillates ts ↔ Oscillates us := by
  induction h with
  | refl => rfl
  | tail _ hstep ih =>
    obtain ⟨before, between, after, m, c⟩ := hstep
    rw [ih]
    simp only [Oscillates, List.mem_append, List.mem_cons, or_and_right, exists_or, exists_eq_left,
      oscillation_withCoefficient]
    grind

/-- What holds of all terms whatever their coefficients holds of them once they are added up. -/
theorem Merges.forall_mem {P : Monomial Exact → Prop} (h : Merges ts us)
    (hP : ∀ m c, P m → P (m.withCoefficient c)) (hts : ∀ m ∈ ts, P m) : ∀ m ∈ us, P m := by
  induction h with
  | refl => exact hts
  | tail _ hstep ih =>
    obtain ⟨before, between, after, m, c⟩ := hstep
    simp only [List.forall_mem_append, List.forall_mem_cons] at ih ⊢
    exact ⟨ih.1, hP m _ ih.2.1, ih.2.2.1, ih.2.2.2.2⟩

/-! Products with one term keep the order of the others; a term that is added to another one brings all of
its products, which are added one by one. -/

theorem keptRow_merges (m : Monomial Exact) (h : Merges right right') :
    Merges (keptRow m right) (keptRow m right') := by
  refine h.lift fun ts us hstep => ?_
  obtain ⟨before, between, after, b, c⟩ := hstep
  have hsum : m.times (b.withCoefficient (b.coefficient + c)) =
      (m.times b).withCoefficient ((m.times b).coefficient + m.coefficient * c) :=
    congrArg (m.times b).withCoefficient (Exact.mul_add m.coefficient b.coefficient c)
  rw [keptRow_append, keptRow_append]
  by_cases hboth : (m.oscillation.isSome && b.oscillation.isSome) = true
  · rw [keptRow_cons_oscillating hboth,
      keptRow_cons_oscillating (b := b.withCoefficient (b.coefficient + c)) hboth,
      keptRow_append, keptRow_append, keptRow_cons_oscillating (b := b.withCoefficient c) hboth]
    exact .refl _
  · rw [keptRow_cons_of_not hboth, keptRow_cons_of_not (b := b.withCoefficient (b.coefficient + c)) hboth,
      keptRow_append, keptRow_append, keptRow_cons_of_not (b := b.withCoefficient c) hboth, hsum]
    exact (MergeStep.mk _ _ _ (m.times b) (m.coefficient * c)).merges

theorem keptRow_withCoefficient_merges (m : Monomial Exact) (c : Exact)
    (between right : List (Monomial Exact)) :
    Merges (keptRow m right ++ (between ++ keptRow (m.withCoefficient c) right))
      (keptRow (m.withCoefficient (m.coefficient + c)) right ++ between) := by
  induction right with
  | nil =>
    rw [keptRow_nil, keptRow_nil, keptRow_nil, List.append_nil]
    exact .refl between
  | cons b right ih =>
    by_cases hboth : (m.oscillation.isSome && b.oscillation.isSome) = true
    · rw [keptRow_cons_oscillating hboth, keptRow_cons_oscillating (m := m.withCoefficient c) hboth,
        keptRow_cons_oscillating (m := m.withCoefficient (m.coefficient + c)) hboth]
      exact ih
    · rw [keptRow_cons_of_not hboth, keptRow_cons_of_not (m := m.withCoefficient c) hboth,
        keptRow_cons_of_not (m := m.withCoefficient (m.coefficient + c)) hboth]
      have hsum : (m.withCoefficient (m.coefficient + c)).times b =
          (m.times b).withCoefficient ((m.times b).coefficient + c * b.coefficient) :=
        congrArg (m.times b).withCoefficient (Exact.add_mul m.coefficient c b.coefficient)
      have hstep := MergeStep.mk [] (keptRow m right ++ between)
        (keptRow (m.withCoefficient c) right) (m.times b) (c * b.coefficient)
      rw [hsum]
      simp only [List.nil_append, List.append_assoc] at hstep
      exact hstep.merges.trans (ih.append_left [_])

theorem kept_merges_right (left : List (Monomial Exact)) (h : Merges right right') :
    Merges (kept left right) (kept left right') := by
  induction left with
  | nil => exact .refl []
  | cons m left ih => exact (keptRow_merges m h).append ih

theorem kept_merges_left (h : Merges left left') (right : List (Monomial Exact)) :
    Merges (kept left right) (kept left' right) := by
  refine h.lift (f := (kept · right)) fun ts us hstep => ?_
  obtain ⟨before, between, after, m, c⟩ := hstep
  have hrows := keptRow_withCoefficient_merges m c (kept between right) right
  simp only [kept_append, kept_cons]
  have hmiddle := (hrows.append_right (kept after right)).append_left (kept before right)
  simpa only [List.append_assoc] using hmiddle

theorem Merges.kept (hl : Merges left left') (hr : Merges right right') :
    Merges (kept left right) (kept left' right') :=
  (kept_merges_left hl right).trans (kept_merges_right left' hr)

/-! Adding up does not change the value, and leaves one term of any number of constants. -/

theorem value_withCoefficient_add (m : Monomial Exact) (c t : Exact) :
    (m.withCoefficient (m.coefficient + c)).value t = m.value t + (m.withCoefficient c).value t := by
  simp only [value, withCoefficient, Exact.add_mul]

theorem sumValue_cons (m : Monomial Exact) (ts : List (Monomial Exact)) (t : Exact) :
    sumValue (m :: ts) t = m.value t + sumValue ts t := rfl

theorem sumValue_insert (m : Monomial Exact) (before after : List (Monomial Exact)) (t : Exact) :
    sumValue (before ++ m :: after) t = m.value t + sumValue (before ++ after) t := by
  induction before with
  | nil => rfl
  | cons b before ih =>
    rw [List.cons_append, List.cons_append, sumValue_cons, sumValue_cons, ih, Exact.add_left_comm]

theorem Merges.sumValue_eq (h : Merges ts us) (t : Exact) : sumValue ts t = sumValue us t := by
  induction h with
  | refl => rfl
  | tail _ hstep ih =>
    obtain ⟨before, between, after, m, c⟩ := hstep
    rw [ih, sumValue_insert, sumValue_insert, value_withCoefficient_add, ← List.append_assoc,
      sumValue_insert, ← List.append_assoc, Exact.add_assoc]

theorem exists_merges_constant (ts : List (Monomial Exact)) (h : ∀ m ∈ ts, ∃ c, m = constant c)
    (b : Exact) : ∃ c, Merges (constant b :: ts) [constant c] := by
  induction ts generalizing b with
  | nil => exact ⟨b, .refl _⟩
  | cons m ts ih =>
    obtain ⟨c, rfl⟩ := h m List.mem_cons_self
    obtain ⟨d, hd⟩ := ih (fun m hm => h m (List.mem_cons_of_mem _ hm)) (b + c)
    exact ⟨d, (MergeStep.mk [] [] ts (constant b) c).merges.trans hd⟩

/-- Constants are added up to the one that is their value, unless this is zero. -/
theorem merges_constant {x t : ℝ} (h : ∀ m ∈ ts, ∃ c, m = constant c)
    (hx : sumValue ts (.real t) = .real x) (hne : x ≠ 0) : Merges ts [constant (.real x)] := by
  cases ts with
  | nil =>
    rw [sumValue_nil, Exact.real.injEq] at hx
    exact absurd hx.symm hne
  | cons m ts =>
    obtain ⟨b, rfl⟩ := h m List.mem_cons_self
    obtain ⟨c, hc⟩ := exists_merges_constant ts (fun m hm => h m (List.mem_cons_of_mem _ hm)) b
    rw [hc.sumValue_eq, sumValue_singleton, value_constant] at hx
    exact hx ▸ hc

end Monomial

end Oscillator
