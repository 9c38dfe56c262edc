import Oscillator.Proofs.Motion.Spring
import Oscillator.Proofs.Prepared

/-! # What is said beside a signal

The signal of a response, its constants and the reports beside it are set in different stages. They
agree: either the closed form of the response's regime is shown, or a reference signal with the one
reason for it, and each report is one that the mode and the regime can give rise to.
-/
namespace Oscillator

variable {α : Type}

def OnlyFallbacks (ds : List (Degradation α)) : Prop :=
  ∀ d ∈ ds, ∃ component value, d = .fallbackConstant component value

theorem OnlyFallbacks.nil : OnlyFallbacks (α := α) [] := List.forall_mem_nil _

theorem OnlyFallbacks.singleton (component : Component) (value : α) :
    OnlyFallbacks [.fallbackConstant component value] :=
  List.forall_mem_singleton.mpr ⟨component, value, rfl⟩

theorem OnlyFallbacks.append {ds ds' : List (Degradation α)} (h : OnlyFallbacks ds)
    (h' : OnlyFallbacks ds') : OnlyFallbacks (ds ++ ds') :=
  List.forall_mem_append.mpr ⟨h, h'⟩

/-- The reports of a resolution in a mode and a regime. A text may leave parts out and have symbols,
which are said first; parameters only lack a forcing. -/
inductive Reports : Mode → Regime → List (Degradation α) → Prop where
  | parts {regime : Regime} {ds : List (Degradation α)} (h : OnlyFallbacks ds) :
    Reports .textual regime ds
  | symbols {regime : Regime} {ds : List (Degradation α)} (names : Names) (value : α)
    (h : OnlyFallbacks ds) : Reports .textual regime (.unresolvedConstants names value :: ds)
  | nothing {regime : Regime} : Reports .parametric regime []
  | forcing (literal : String) : Reports .parametric .forced [.unsupportedForcing literal]

variable [Arithmetic α]

namespace Textual

variable {defaults : TextDefaults α}

omit [Arithmetic α] in
theorem onlyFallbacks_orDefault (component : Component) (default : α) (x : Option α) :
    OnlyFallbacks (orDefault component default x).2 := by
  cases x with
  | some x => exact .nil
  | none => exact .singleton component default

omit [Arithmetic α] in
theorem onlyFallbacks_amplitudes (found : Bool) (c1 c2 : α) :
    OnlyFallbacks (amplitudes defaults found c1 c2).2 := by
  cases found with
  | true => exact .nil
  | false => exact .singleton .amplitudes defaults.placeholder

theorem onlyFallbacks_overdamped (terms : List (Monomial α)) :
    OnlyFallbacks (overdamped defaults terms).2 := by
  unfold overdamped
  refine .append (.append ?_ ?_) (onlyFallbacks_amplitudes _ _ _)
  · split
    · exact .nil
    · exact .singleton _ _
  · split
    · exact .nil
    · exact .singleton _ _

theorem onlyFallbacks_coefficients (regime : Regime) (terms : List (Monomial α)) :
    OnlyFallbacks (coefficients regime defaults terms).2 := by
  cases regime with
  | undamped => exact .append (onlyFallbacks_orDefault _ _ _) (onlyFallbacks_amplitudes _ _ _)
  | underdamped =>
    refine .append ?_ (onlyFallbacks_amplitudes _ _ _)
    exact .append (onlyFallbacks_orDefault _ _ _) (onlyFallbacks_orDefault _ _ _)
  | forced =>
    refine .append (.append ?_ (onlyFallbacks_orDefault _ _ _)) (onlyFallbacks_amplitudes _ _ _)
    exact .append (onlyFallbacks_orDefault _ _ _) (onlyFallbacks_orDefault _ _ _)
  | critical => exact .append (onlyFallbacks_orDefault _ _ _) (onlyFallbacks_amplitudes _ _ _)
  | overdamped => exact onlyFallbacks_overdamped terms

theorem regime_coefficients (regime : Regime) (terms : List (Monomial α)) :
    (coefficients regime defaults terms).1.regime = regime := by
  cases regime <;> rfl

theorem reports_resolve (regime : Regime) (text : String) (properties : Option (Properties α)) :
    Reports .textual regime (resolve regime text properties defaults).degradations := by
  have hparts : OnlyFallbacks (coefficients regime defaults
      ((readTerms (rightHandSide text)).map (substitute defaults.placeholder))).2 :=
    onlyFallbacks_coefficients regime _
  by_cases hnames : (unresolved (rightHandSide text)
      (readTerms (α := α) (rightHandSide text))).isEmpty = true
  · simp only [resolve, hnames, if_true, List.nil_append]
    exact .parts hparts
  · simp only [resolve, hnames, if_false, List.singleton_append, Bool.false_eq_true]
    exact .symbols _ _ hparts

end Textual

theorem Parametric.reports_resolve (regime : Regime) (s : System α)
    (properties : Option (Properties α)) (settings : Settings α) :
    Reports .parametric regime (resolve regime s properties settings).degradations := by
  rw [resolve_degradations]
  split
  case isTrue h =>
    subst h
    cases hf : Forcing.parse (α := α) (s.force.getD "") with
    | ok f => simpa only [forcing_of_parse hf] using Reports.nothing
    | error e => simpa only [forcing, hf] using Reports.forcing _
  case isFalse => exact .nothing

/-- A resolution is of the regime that it was asked for, in its constants and its reports too. -/
structure Resolution.IsOf (q : Resolution α) (regime : Regime) : Prop where
  regime_eq : q.regime = regime
  coefficients : q.coefficients.regime = regime
  system : q.system.isSome = true ↔ q.mode = .parametric
  reports : Reports q.mode regime q.degradations

theorem Response.resolve_isOf {r : Response α} {settings : Settings α} {q : Resolution α}
    (h : r.resolve settings = .ok q) : q.IsOf r.regime := by
  unfold resolve at h
  split at h
  case h_1 => cases h
  case h_2 s _ _ =>
    cases h
    refine ⟨rfl, ?_, by simp [Parametric.resolve], Parametric.reports_resolve ..⟩
    rw [Parametric.resolve_coefficients, Parametric.regime_constants]
  case h_3 text _ _ =>
    cases h
    exact ⟨rfl, Textual.regime_coefficients .., by simp [Textual.resolve],
      Textual.reports_resolve ..⟩
  case h_4 => cases h

theorem Coefficients.ne_mismatch_of_failure? {c : Coefficients α} {regime : Regime}
    {reason : FormFailure} (hc : c.regime = regime) (h : c.failure? regime = some reason)
    (found wanted : Regime) : reason ≠ .mismatch found wanted := by
  rintro rfl
  simp only [failure?, ne_eq, hc, not_true_eq_false, if_false] at h
  split at h
  · cases h
  · split at h <;> cases h

namespace Reports

variable {mode : Mode} {regime : Regime} {ds : List (Degradation α)} {d : Degradation α}

omit [Arithmetic α] in
theorem cases_of_mem (h : Reports mode regime ds) (hd : d ∈ ds) :
    mode = .textual ∧ ((∃ names value, d = .unresolvedConstants names value) ∨
        ∃ component value, d = .fallbackConstant component value) ∨
      (mode = .parametric ∧ regime = .forced) ∧ ∃ literal, d = .unsupportedForcing literal := by
  cases h with
  | parts h => exact .inl ⟨rfl, .inr (h d hd)⟩
  | symbols names value h =>
    rcases List.mem_cons.mp hd with rfl | hd
    · exact .inl ⟨rfl, .inl ⟨names, value, rfl⟩⟩
    · exact .inl ⟨rfl, .inr (h d hd)⟩
  | nothing => cases hd
  | forcing literal => exact .inr ⟨⟨rfl, rfl⟩, literal, List.mem_singleton.mp hd⟩

omit [Arithmetic α] in
/-- Whatever is reported about the constants, it makes the curve another one. -/
theorem affectsCurve (h : Reports mode regime ds) (hd : d ∈ ds) : d.affectsCurve = true := by
  rcases h.cases_of_mem hd with ⟨-, ⟨_, _, rfl⟩ | ⟨_, _, rfl⟩⟩ | ⟨-, _, rfl⟩ <;> rfl

omit [Arithmetic α] in
theorem evaluationFailure_notMem (h : Reports mode regime ds) (reason : FormFailure) :
    .evaluationFailure reason ∉ ds := by
  intro hd
  rcases h.cases_of_mem hd with ⟨-, ⟨_, _, hd⟩ | ⟨_, _, hd⟩⟩ | ⟨-, _, hd⟩ <;> cases hd

omit [Arithmetic α] in
theorem unresolvedConstants_notMem_tail (h : Reports mode regime ds) (names : Names) (value : α) :
    .unresolvedConstants names value ∉ ds.tail := by
  have hparts {ds : List (Degradation α)} (h : OnlyFallbacks ds) :
      .unresolvedConstants names value ∉ ds := by
    intro hd
    obtain ⟨_, _, hd⟩ := h _ hd
    cases hd
  cases h with
  | parts h => exact fun hd => hparts h (List.mem_of_mem_tail hd)
  | symbols _ _ h => exact hparts h
  | nothing => exact List.not_mem_nil
  | forcing _ => exact List.not_mem_nil

end Reports

/-! What is prepared, with the reason for a reference signal as an optional last report. -/

namespace Prepared

variable (p : Prepared α)

/-- The closed form of the regime is shown, with the constants that make it. -/
def ShowsClosedForm : Prop :=
  ∃ c : Coefficients α, p.signal = .regime c ∧ p.coefficients = some c ∧ c.regime = p.regime ∧
    c.isFinite = true ∧ ∀ reason, .evaluationFailure reason ∉ p.degradations

/-- The reference signal of the mode is shown, and the last report alone says why. It never is that
the constants are those of another regime. -/
def ShowsReference : Prop :=
  ∃ reference reason ds, p.signal = .reference reference ∧ p.coefficients = none ∧
    (reference = .cosine ↔ p.mode = .parametric) ∧
    p.degradations = ds ++ [.evaluationFailure reason] ∧
    (∀ other, .evaluationFailure other ∉ ds) ∧ ∀ found wanted, reason ≠ .mismatch found wanted

/-- The reports about the constants are of the mode and the regime, and symbols come first. -/
structure ReportsByMode : Prop where
  unresolvedConstants : ∀ names value, .unresolvedConstants names value ∈ p.degradations →
    p.mode = .textual
  unresolvedConstants_first : ∀ names value,
    .unresolvedConstants names value ∉ p.degradations.tail
  fallbackConstant : ∀ component value, .fallbackConstant component value ∈ p.degradations →
    p.mode = .textual
  unsupportedForcing : ∀ literal, .unsupportedForcing literal ∈ p.degradations →
    p.mode = .parametric ∧ p.regime = .forced

variable {p} {ds : List (Degradation α)} {failure : Option FormFailure}

omit [Arithmetic α] in
theorem reportsByMode_of_reports (h : Reports p.mode p.regime ds)
    (hp : p.degradations = ds ++ (failure.map .evaluationFailure).toList) : p.ReportsByMode := by
  -- The failure is none of the reports spoken of.
  have hmem {d : Degradation α} (hd : d ∈ p.degradations)
      (hne : ∀ reason, d ≠ .evaluationFailure reason) : d ∈ ds := by
    rw [hp, List.mem_append] at hd
    refine hd.resolve_right fun hd => ?_
    obtain ⟨reason, -, hreason⟩ := Option.map_eq_some_iff.mp (Option.mem_toList.mp hd)
    exact hne reason hreason.symm
  refine ⟨fun names value hd => ?_, fun names value hd => ?_, fun component value hd => ?_,
    fun literal hd => ?_⟩
  · rcases h.cases_of_mem (hmem hd (by simp)) with ⟨hm, -⟩ | ⟨-, _, hd⟩
    · exact hm
    · cases hd
  · cases ds with
    | nil => simp [hp] at hd; cases failure <;> simp at hd
    | cons d ds =>
      rw [hp, List.cons_append, List.tail_cons, List.mem_append] at hd
      rcases hd with hd | hd
      · exact h.unresolvedConstants_notMem_tail names value hd
      · simp at hd
  · rcases h.cases_of_mem (hmem hd (by simp)) with ⟨hm, -⟩ | ⟨-, _, hd⟩
    · exact hm
    · cases hd
  · rcases h.cases_of_mem (hmem hd (by simp)) with ⟨-, ⟨_, _, hd⟩ | ⟨_, _, hd⟩⟩ | ⟨hm, -⟩
    · cases hd
    · cases hd
    · exact hm

omit [Arithmetic α] in
theorem isApproximate_eq_false_iff_of_reports (h : Reports p.mode p.regime ds)
    (hp : p.degradations = ds ++ (failure.map .evaluationFailure).toList) :
    p.isApproximate = false ↔ p.mode = .parametric ∧ p.degradations = [] := by
  have hall : ∀ d ∈ p.degradations, d.affectsCurve = true := by
    rw [hp]
    refine List.forall_mem_append.mpr ⟨fun d => h.affectsCurve, fun d hd => ?_⟩
    obtain ⟨reason, -, rfl⟩ := Option.map_eq_some_iff.mp (Option.mem_toList.mp hd)
    rfl
  have hmode : (p.mode == .textual) = false ↔ p.mode = .parametric := by cases p.mode <;> simp
  rw [isApproximate, Mode.isApproximate, Bool.or_eq_false_iff, hmode, and_congr_right_iff]
  intro
  rw [List.any_eq_false, List.eq_nil_iff_forall_not_mem]
  exact forall_congr' fun d => ⟨fun hd hmem => hd hmem (hall d hmem), fun hd hmem => absurd hmem hd⟩

end Prepared

theorem Resolution.prepare_shows {q : Resolution α} (h : q.IsOf q.regime) :
    q.prepare.ShowsClosedForm ∨ q.prepare.ShowsReference := by
  cases hf : q.coefficients.failure? q.regime with
  | none =>
    have he : q.coefficients.evaluation q.regime q.mode.reference = ⟨.regime q.coefficients, none⟩ := by
      rw [Coefficients.evaluation, hf]
    have hfinite := (Coefficients.failure?_eq_none_iff.mp hf).2.1
    refine .inl ⟨q.coefficients, ?_, ?_, h.coefficients, hfinite, fun reason => ?_⟩
    · simp only [prepare, he]
    · simp only [prepare, he, Option.isNone_none, if_true]
    · simpa only [prepare, he, Option.map_none, Option.toList_none, List.append_nil] using
        h.reports.evaluationFailure_notMem reason
  | some reason =>
    have he : q.coefficients.evaluation q.regime q.mode.reference =
        ⟨.reference q.mode.reference, some reason⟩ := by
      rw [Coefficients.evaluation, hf]
    refine .inr ⟨q.mode.reference, reason, q.degradations, ?_, ?_, ?_, ?_,
      h.reports.evaluationFailure_notMem, Coefficients.ne_mismatch_of_failure? h.coefficients hf⟩
    · simp only [prepare, he]
    · simp only [prepare, he, Option.isNone_some, Bool.false_eq_true, if_false]
    · change q.mode.reference = .cosine ↔ q.mode = .parametric
      cases q.mode <;> simp [Mode.reference]
    · simp only [prepare, he, Option.map_some, Option.toList_some]

theorem Response.exists_resolve_of_prepare {r : Response α} {settings : Settings α} {p : Prepared α}
    (h : r.prepare settings = .ok p) : ∃ q, r.resolve settings = .ok q ∧ p = q.prepare := by
  rw [prepare] at h
  cases hq : r.resolve settings with
  | error e => simp [hq, Functor.map, Except.map] at h
  | ok q =>
    rw [hq] at h
    cases h
    exact ⟨q, rfl, rfl⟩

/-- What is prepared from a response is of its regime. It shows the closed form of that regime or,
where there is none, the reference signal of the mode; the stiffness is known from parameters only;
and exact is what is computed from parameters without any report. -/
theorem Response.prepare_consistent {r : Response α} {settings : Settings α} {p : Prepared α}
    (h : r.prepare settings = .ok p) :
    p.regime = r.regime ∧ (p.ShowsClosedForm ∨ p.ShowsReference) ∧
      (p.stiffness.isSome = true ↔ p.mode = .parametric) ∧ p.ReportsByMode ∧
      (p.isApproximate = false ↔ p.mode = .parametric ∧ p.degradations = []) := by
  obtain ⟨q, hq, rfl⟩ := exists_resolve_of_prepare h
  have hof := resolve_isOf hq
  have hregime := hof.regime_eq
  rw [← hregime] at hof
  refine ⟨hregime, q.prepare_shows hof, ?_, Prepared.reportsByMode_of_reports hof.reports rfl,
    Prepared.isApproximate_eq_false_iff_of_reports hof.reports rfl⟩
  simpa only [Resolution.prepare, Option.isSome_map] using hof.system

/-- The ringing system under a force that is no expression. -/
def Response.misforced : Response Exact := ⟨.forced, none, none, some (.ringingUnder "?"), none, none⟩

theorem Response.prepare_consistent_misforced :
    ∃ p : Prepared Exact, misforced.prepare .standard = .ok p ∧ p.regime = .forced ∧
      (p.ShowsClosedForm ∨ p.ShowsReference) ∧
      (p.stiffness.isSome = true ↔ p.mode = .parametric) ∧ p.ReportsByMode ∧
      (p.isApproximate = false ↔ p.mode = .parametric ∧ p.degradations = []) :=
  have hp : misforced.prepare .standard = .ok _ :=
    prepare_of_system (r := misforced) (Parameters.ringingUnder_system? "?") .standard
  ⟨_, hp, prepare_consistent hp⟩

end Oscillator
