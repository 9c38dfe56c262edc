import Mathlib.Data.List.TakeWhile
import Oscillator.Proofs.Double.Grid
import Oscillator.Proofs.Prepared

/-! # What becomes of a response

Every response is an error or a plot, and it can be told from its fields which. A plot has a point at
time zero whatever the constants are, since a closed form without a value there is replaced.
-/
namespace Oscillator

open Arithmetic

namespace Text

theorem trimChars_eq_nil_iff {cs : List Char} :
    trimChars cs = [] ↔ ∀ c ∈ cs, isBlank c = true := by
  rw [trimChars, List.reverse_eq_nil_iff, List.dropWhile_eq_nil_iff]
  simp only [List.mem_reverse]
  constructor
  · intro h c hc
    rw [← List.takeWhile_append_dropWhile (p := isBlank) (l := cs), List.mem_append] at hc
    rcases hc with hc | hc
    · exact List.mem_takeWhile_imp hc
    · exact h c hc
  · intro h c hc
    exact h c (List.dropWhile_subset _ hc)

theorem trim_isEmpty_iff {s : String} :
    (trim s).isEmpty = true ↔ ∀ c ∈ s.toList, isBlank c = true := by
  rw [← trimChars_eq_nil_iff, String.isEmpty_iff, trim]
  simp

end Text

section

variable {α : Type} [Arithmetic α]

omit [Arithmetic α] in
theorem Response.solutionText_eq_none_iff {r : Response α} : r.solutionText = none ↔
    ∀ text, r.solution = some text → ∀ c ∈ text.toList, Text.isBlank c = true := by
  cases h : r.solution with
  | none => simp [solutionText, h]
  | some text => simp [solutionText, h, ← Text.trim_isEmpty_iff]

namespace Response

variable {r : Response α} {settings : Settings α}

/-- Without parameters that are wrong there is no system only where no constant is given. -/
theorem system?_eq_none_iff : r.system? = .ok none ↔
    ∀ p, r.parameters = some p → p.mass = none ∧ p.stiffness = none ∧ p.omegaSquared = none := by
  cases h : r.parameters with
  | none => simp [system?, h]
  | some p => simp [system?, h, Parameters.system?_eq_none_iff]

theorem system?_eq_error_iff {e : ParameterError α} :
    r.system? = .error e ↔ ∃ p, r.parameters = some p ∧ p.system? = .error e := by
  cases h : r.parameters with
  | none => simp [system?, h]
  | some p => simp [system?, h]

theorem plot_eq_error_iff {e : ResponseError α} :
    r.plot settings = .error e ↔ r.resolve settings = .error e := by
  rw [plot, prepare]
  cases r.resolve settings <;> simp [Functor.map, Except.map]

theorem plot_eq_invalidParameters_iff {e : ParameterError α} :
    r.plot settings = .error (.invalidParameters e) ↔ r.system? = .error e := by
  rw [plot_eq_error_iff]
  unfold resolve
  rcases r.system? with e' | _ | s
  · simp
  · cases r.solutionText <;> simp
  · simp

theorem plot_eq_noInput_iff :
    r.plot settings = .error .noInput ↔ r.system? = .ok none ∧ r.solutionText = none := by
  rw [plot_eq_error_iff]
  unfold resolve
  rcases r.system? with e' | _ | s
  · simp
  · cases r.solutionText <;> simp
  · simp

/-- What is no error is the plot of a resolution. -/
theorem exists_plot_eq_ok (hp : ∀ e, r.plot settings ≠ .error (.invalidParameters e))
    (hn : r.plot settings ≠ .error .noInput) :
    ∃ q : Resolution α, r.plot settings = .ok (q.prepare.plot settings) := by
  cases h : r.resolve settings with
  | ok q =>
    refine ⟨q, ?_⟩
    rw [plot, prepare, h]
    rfl
  | error e =>
    have he := plot_eq_error_iff.mpr h
    cases e with
    | invalidParameters e => exact absurd he (hp e)
    | noInput => exact absurd he hn

end Response

/-- A signal is finite at the start if the reference signals are. -/
theorem Resolution.isFinite_start (h : ∀ x : Reference, isFinite (x.value (0 : α)) = true)
    (q : Resolution α) : isFinite (q.prepare.value 0) = true := by
  change isFinite ((q.coefficients.evaluation q.regime q.mode.reference).signal.value 0) = true
  unfold Coefficients.evaluation
  split
  case h_1 hnone => exact (Coefficients.failure?_eq_none_iff.mp hnone).2.2
  case h_2 => exact h q.mode.reference

/-- A signal that is finite at the start is sampled there first. -/
theorem Samples.collect_start {f : Signal α} {g : TimeGrid α} (hcount : 0 < g.count)
    (htime : g.time 0 = 0) (hf : isFinite (f 0) = true) (derivativeStep : α) :
    ∃ rest, (start f g .position derivativeStep).collect.1 = ⟨0, f 0⟩ :: rest := by
  obtain ⟨n, hn⟩ := Nat.exists_eq_succ_of_ne_zero hcount.ne'
  have hat : (start f g .position derivativeStep).at? 0 = some ⟨0, f 0⟩ := by
    simp [at?, start, channelValue, htime, hf]
  have hremaining : (start f g .position derivativeStep).remaining = n + 1 := hn
  rw [collect, hremaining, start, List.range'_succ, List.map_cons]
  exact ⟨_, List.filterMap_cons_some hat⟩

/-- Nothing in a response can be plotted: no constants are given, and no solution or only blanks. -/
def Response.IsEmpty (r : Response α) : Prop :=
  (∀ p, r.parameters = some p → p.mass = none ∧ p.stiffness = none ∧ p.omegaSquared = none) ∧
    ∀ text, r.solution = some text → ∀ c ∈ text.toList, Text.isBlank c = true

theorem Response.plot_eq_noInput_iff_isEmpty {r : Response α} (settings : Settings α) :
    r.plot settings = .error .noInput ↔ r.IsEmpty := by
  rw [plot_eq_noInput_iff, system?_eq_none_iff, solutionText_eq_none_iff, IsEmpty]

end

section

variable {e : Elementary}

theorem Response.exists_plot_eq_invalidParameters_iff {r : Response (Double e)}
    (settings : Settings (Double e)) :
    (∃ error, r.plot settings = .error (.invalidParameters error)) ↔
      ∃ p, r.parameters = some p ∧ p.IsInvalid := by
  simp only [plot_eq_invalidParameters_iff, system?_eq_error_iff, exists_comm (α := ParameterError _),
    exists_and_left]
  simp only [Parameters.exists_system?_eq_error_iff Double.one_isPositive fun _ => Double.two_mul_nonneg]

/-- A response is an error where its parameters are invalid or it is empty, and a plot in all other
cases. If the sampled range is one, the positions begin at time zero; of the elementary functions it
is needed that the two reference signals are finite there. -/
theorem plotted_unless_invalid_or_empty (r : Response (Double e)) (settings : Settings (Double e))
    (hcos : isFinite (cos (0 : Double e)) = true)
    (hexp : isFinite (exp (-0.2 * 0 : Double e) * cos (0 : Double e)) = true) :
    ((∃ error, r.plot settings = .error (.invalidParameters error)) ↔
        ∃ p, r.parameters = some p ∧ p.IsInvalid) ∧
      (r.plot settings = .error .noInput ↔ r.IsEmpty) ∧
      ((¬∃ p, r.parameters = some p ∧ p.IsInvalid) → ¬r.IsEmpty →
        ∃ plot, r.plot settings = .ok plot ∧
          (IsNonnegative settings.sampling.horizon → IsPositive settings.sampling.step →
            ∃ value rest, plot.positions = ⟨0, value⟩ :: rest)) := by
  refine ⟨Response.exists_plot_eq_invalidParameters_iff settings,
    Response.plot_eq_noInput_iff_isEmpty settings, ?_⟩
  intro hvalid hsome
  rw [← Response.exists_plot_eq_invalidParameters_iff settings, not_exists] at hvalid
  rw [← Response.plot_eq_noInput_iff_isEmpty settings] at hsome
  obtain ⟨q, hq⟩ := Response.exists_plot_eq_ok hvalid hsome
  refine ⟨_, hq, fun hb hs => ?_⟩
  have hreference (x : Reference) : isFinite (x.value (0 : Double e)) = true := by
    cases x with
    | cosine => exact hcos
    | decayingCosine => exact hexp
  obtain ⟨width, count, hw, hcount, hgrid⟩ := TimeGrid.capped_eq hb hs settings.sampling.maxPoints
  obtain ⟨rest, hrest⟩ := Samples.collect_start hcount (TimeGrid.time_zero hb hw count)
    (q.isFinite_start hreference) settings.derivativeStep
  rw [← hgrid] at hrest
  exact ⟨_, rest, hrest⟩

end

/-- What runs are the doubles over the functions of the platform. -/
example (r : Response Float) (settings : Settings Float) :
    r.plot settings = Response.plot (α := Double .native) r settings := rfl

/-- Functions with the values of the elementary ones at zero. -/
def Elementary.atZero : Elementary where
  sin x := x
  cos _ := 1
  tan x := x
  exp _ := 1
  pow _ _ := 1

def Response.unreadable {α : Type} : Response α where
  regime := .overdamped
  solution := some "?"
  equation := none
  parameters := none
  properties := none
  coefficientLists := none

def Settings.coarse {α : Type} [Arithmetic α] : Settings α :=
  { Settings.standard with sampling := ⟨2, 1, 300⟩ }

/-- A solution that cannot be read is still plotted, here on a grid of three points. -/
theorem plotted_unless_invalid_or_empty_unreadable :
    isFinite (cos (0 : Double .atZero)) = true ∧
      isFinite (exp (-0.2 * 0 : Double .atZero) * cos (0 : Double .atZero)) = true ∧
      (TimeGrid.capped (2 : Double .atZero) 1 300).count = 3 ∧
      ∃ plot, (Response.unreadable (α := Double .atZero)).plot .coarse = .ok plot ∧
        ∃ value rest, plot.positions = ⟨0, value⟩ :: rest := by
  have hcos : isFinite (cos (0 : Double .atZero)) = true := by decide +kernel
  have hexp : isFinite (exp (-0.2 * 0 : Double .atZero) * cos (0 : Double .atZero)) = true := by
    decide +kernel
  obtain ⟨-, -, h⟩ := plotted_unless_invalid_or_empty (e := .atZero) .unreadable .coarse hcos hexp
  obtain ⟨plot, hplot, hpositions⟩ := h (by simp [Response.unreadable]) fun hempty =>
    absurd (hempty.2 "?" rfl '?' (by decide)) (by decide)
  exact ⟨hcos, hexp, by decide +kernel, plot, hplot, hpositions (by decide +kernel) (by decide +kernel)⟩

end Oscillator
