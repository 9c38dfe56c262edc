import Oscillator.Proofs.Expansion.Proper
import Oscillator.Proofs.Reading.Literal
import Oscillator.Resolution.Textual

/-! # Readings without a wave

A forcing begins with the frequency zero and the waves of a text with none, and both take the frequency of
the first wave that they meet. As no wave of an expansion has the frequency zero, what they begin with says
that no wave has been met, and nothing else.
-/
namespace Oscillator

open Exact Monomial

namespace Forcing

variable {F G : Harmonic Exact} {m : Monomial Exact} {ts : List (Monomial Exact)}

theorem parse_of_rejected {literal : String} {e : Expr Exact} {reason : Rejection Exact}
    (he : Expr.parse literal = .ok e) (hreason : e.expand = .error reason) :
    (parse literal : Except (ForcingError Exact) (Harmonic Exact)) = .error (.rejected reason) := by
  rw [parse, he]
  change ((e.expand.mapError ForcingError.rejected) >>= fun ts => ofTerms ts) = _
  rw [hreason]
  rfl

theorem frequency_addWave_eq (F : Harmonic Exact) (wave : Wave) (c frequency : Exact) :
    (F.addWave wave c frequency).frequency = frequency := by
  cases wave <;> rfl

theorem frequency_addTerm (hm : ∀ o ∈ m.oscillation, o.frequency ≠ 0) (h : addTerm F m = .ok G) :
    G.frequency = 0 ↔ F.frequency = 0 ∧ m.oscillation = none := by
  obtain ⟨-, -, ⟨ho, rfl⟩ | ⟨o, ho, -, rfl⟩⟩ := addTerm_cases h
  · simp [ho, Harmonic.addOffset]
  · rw [frequency_addWave_eq]
    by_cases hF : F.frequency = 0
    · have hset : (F.frequency == 0) = true := by rw [hF, zero_eq, beq_real_iff]
      rw [if_pos hset]
      simp only [hm o ho, ho, reduceCtorEq, and_false]
    · have hset : ¬(F.frequency == 0) = true := by rwa [zero_eq, beq_real_iff, ← zero_eq]
      rw [if_neg hset]
      simp only [hF, false_and]

theorem frequency_foldlM (hts : ∀ m ∈ ts, ∀ o ∈ m.oscillation, o.frequency ≠ 0)
    (h : ts.foldlM addTerm F = .ok G) :
    G.frequency = 0 ↔ F.frequency = 0 ∧ ∀ m ∈ ts, m.oscillation = none := by
  induction ts generalizing F with
  | nil =>
    cases h
    simp
  | cons m ts ih =>
    rw [List.foldlM_cons] at h
    obtain ⟨F', hstep, hrest⟩ := Except.bind_eq_ok.mp h
    rw [ih (List.forall_mem_cons.mp hts).2 hrest, frequency_addTerm (List.forall_mem_cons.mp hts).1 hstep,
      and_assoc, List.forall_mem_cons]

/-- A forcing of frequency zero is one for which no wave has been read. -/
theorem frequency_ofTerms (hts : ∀ m ∈ ts, ∀ o ∈ m.oscillation, o.frequency ≠ 0) (h : ofTerms ts = .ok F) :
    F.frequency = 0 ↔ ∀ m ∈ ts, m.oscillation = none := by
  rw [frequency_foldlM hts h]
  exact and_iff_right rfl

end Forcing

namespace Textual.Waves

section

variable {α : Type} [Arithmetic α] {w : Waves α} {m : Monomial α} {ts : List (Monomial α)}

/-- A frequency is set by the first wave, and kept. -/
theorem frequency_add (w : Waves α) (m : Monomial α) :
    (w.add m).frequency = w.frequency.or (m.oscillation.map (·.frequency)) := by
  obtain ⟨frequency, cosine, sine, found⟩ := w
  cases ho : m.oscillation with
  | none => simp [add, ho]
  | some o =>
    obtain ⟨wave, v⟩ := o
    cases frequency <;> cases wave <;> simp only [add, ho] <;> split_ifs <;> rfl

theorem frequency_foldl (ts : List (Monomial α)) (w : Waves α) :
    (ts.foldl add w).frequency =
      w.frequency.or (ts.findSome? fun m => m.oscillation.map (·.frequency)) := by
  induction ts generalizing w with
  | nil => simp
  | cons m ts ih =>
    rw [List.foldl_cons, ih, frequency_add, Option.or_assoc, List.findSome?_cons]
    cases m.oscillation <;> rfl

/-- The frequency that is read is that of the first wave. -/
theorem frequency_ofTerms (ts : List (Monomial α)) :
    (ofTerms ts).frequency = ts.findSome? fun m => m.oscillation.map (·.frequency) :=
  frequency_foldl ts none

theorem frequency_eq_none_iff : (ofTerms ts).frequency = .none ↔ ∀ m ∈ ts, m.oscillation = .none := by
  simp [frequency_ofTerms]

theorem exists_of_frequency_eq_some {x : α} (h : (ofTerms ts).frequency = some x) :
    ∃ m ∈ ts, ∃ o ∈ m.oscillation, o.frequency = x := by
  rw [frequency_ofTerms] at h
  obtain ⟨m, hm, ho⟩ := List.exists_of_findSome?_eq_some h
  obtain ⟨o, ho, hx⟩ := Option.map_eq_some_iff.mp ho
  exact ⟨m, hm, o, ho, hx⟩

end

end Textual.Waves

theorem Monomial.HasProperWave.frequency_ne {m : Monomial Exact} (h : m.HasProperWave) :
    ∀ o ∈ m.oscillation, o.frequency ≠ 0 := by
  intro o ho
  rw [zero_eq]
  rcases h o ho with ⟨w, hw, hpos⟩ | ⟨hu, -⟩
  · rw [hw]
    exact fun heq => hpos.ne' (Exact.real.inj heq)
  · rw [hu]
    exact Exact.noConfusion

/-- Every term of an expansion, strict or lenient, is proper. So a forcing has the frequency zero, and the
waves of a text have no frequency, only where no wave has been read, and no wave that is read has the
frequency zero. -/
theorem Expr.terms_proper (e : Expr Exact) :
    (∀ ts, e.expand = .ok ts → (∀ m ∈ ts, m.IsProper) ∧
      ∀ read ⊆ ts, ∀ F, Forcing.ofTerms read = .ok F →
        (F.frequency = 0 ↔ ∀ m ∈ read, m.oscillation = none)) ∧
    (∀ literal (F : Harmonic Exact), Expr.parse literal = .ok e → Forcing.parse literal = .ok F →
      ∃ ts, e.expand = .ok ts ∧ (F.frequency = 0 ↔ ∀ m ∈ ts, m.oscillation = none)) ∧
    (∀ m ∈ e.expandLenient.terms, m.IsProper) ∧
    ∀ placeholder, ∀ read ⊆ e.expandLenient.terms.map (Textual.substitute placeholder),
      ((Textual.Waves.ofTerms read).frequency = none ↔ ∀ m ∈ read, m.oscillation = none) ∧
        (Textual.Waves.ofTerms read).frequency ≠ some 0 := by
  have hforcing {ts read : List (Monomial Exact)} (hts : e.expand = .ok ts) (hread : read ⊆ ts)
      {F : Harmonic Exact} (hF : Forcing.ofTerms read = .ok F) :
      F.frequency = 0 ↔ ∀ m ∈ read, m.oscillation = none :=
    Forcing.frequency_ofTerms
      (fun m hm => (isProper_of_expand hts m (hread hm)).wave.frequency_ne) hF
  refine ⟨fun ts hts => ⟨isProper_of_expand hts, fun read hread F hF => hforcing hts hread hF⟩,
    fun literal F he hF => ?_, isProper_of_expandLenient e, fun placeholder read hread =>
    ⟨Textual.Waves.frequency_eq_none_iff, fun hzero => ?_⟩⟩
  · cases hts : e.expand with
    | error reason =>
      rw [Forcing.parse_of_rejected he hts] at hF
      cases hF
    | ok ts =>
      rw [Forcing.parse_of_expand he hts] at hF
      exact ⟨ts, rfl, hforcing hts (List.Subset.refl ts) hF⟩
  · obtain ⟨m, hm, o, ho, hfrequency⟩ := Textual.Waves.exists_of_frequency_eq_some hzero
    obtain ⟨m', hm', rfl⟩ := List.mem_map.mp (hread hm)
    exact (isProper_of_expandLenient e m' hm').wave.frequency_ne o ho hfrequency

/-- The sine of time is one wave, of frequency one. -/
theorem Expr.expand_sine : (call .sin (symbol timeName) : Expr Exact).expand =
    .ok [.oscillating (real 1) .sine (real 1)] := by
  have hvaries : Linear.isConstant (⟨1, 0⟩ : Linear Exact) = false := by simp [Linear.isConstant]
  refine expand_call.mpr ⟨⟨1, 0⟩, _, rfl,
    (expandCall_of_varying hvaries (by simp)).mpr (.inl ⟨rfl, rfl⟩), ?_⟩
  have hsign : ¬(1 : ℝ) < 0 := by norm_num
  simp [nonzero, bne, oscillating, Exact.sign_real, hsign, List.filter]

theorem Expr.terms_proper_sine :
    let m : Monomial Exact := .oscillating (real 1) .sine (real 1)
    m.IsProper ∧ ∃ F, Forcing.ofTerms [m] = .ok F ∧ F.frequency ≠ 0 := by
  intro m
  obtain ⟨hts, hread⟩ := (Expr.terms_proper (call .sin (symbol timeName))).1 [m] expand_sine
  have hterm : Forcing.addTerm .zero m = .ok (Harmonic.addWave .zero .sine (real 1) (real 1)) := by
    simp [Forcing.addTerm, m, oscillating, Harmonic.zero, Harmonic.addWave, bne]
  have hforcing : Forcing.ofTerms [m] = .ok (Harmonic.addWave .zero .sine (real 1) (real 1)) := by
    rw [Forcing.ofTerms, List.foldlM_cons, hterm]
    rfl
  refine ⟨hts m List.mem_cons_self, _, hforcing, fun hzero => ?_⟩
  have hwave := (hread [m] (List.Subset.refl _) _ hforcing).mp hzero m List.mem_cons_self
  cases hwave

end Oscillator
