import Oscillator.Plot

/-! # From a response to its signal

The stages that a response passes, each said once: which constants parameters give, when constants
make a closed form, and what is prepared from a system.
-/
namespace Oscillator

variable {α : Type} [Arithmetic α]

namespace Parametric

def constants (regime : Regime) (c : Characteristics α) (x v : α) (forcing : Harmonic α) :
    Coefficients α :=
  match regime with
  | .undamped => undamped c x v
  | .underdamped => underdamped c x v
  | .forced => forced c x v forcing
  | .critical => critical c x v
  | .overdamped => overdamped c x v

theorem resolve_coefficients (regime : Regime) (s : System α) (properties : Option (Properties α))
    (settings : Settings α) :
    (resolve regime s properties settings).coefficients =
      constants regime ((Characteristics.ofSystem s).mergedWith properties) s.initialPosition
        s.initialVelocity (forcing s settings).1 := by
  cases regime <;> rfl

/-- Only the forced regime reads the literal, and only a literal that is no forcing is reported. -/
theorem resolve_degradations (regime : Regime) (s : System α) (properties : Option (Properties α))
    (settings : Settings α) :
    (resolve regime s properties settings).degradations =
      if regime = .forced then (forcing s settings).2 else [] := by
  cases regime <;> rfl

@[simp] theorem resolve_regime (regime : Regime) (s : System α) (properties : Option (Properties α))
    (settings : Settings α) : (resolve regime s properties settings).regime = regime := rfl

@[simp] theorem resolve_mode (regime : Regime) (s : System α) (properties : Option (Properties α))
    (settings : Settings α) : (resolve regime s properties settings).mode = .parametric := rfl

@[simp] theorem regime_constants (regime : Regime) (c : Characteristics α) (x v : α)
    (forcing : Harmonic α) : (constants regime c x v forcing).regime = regime := by
  cases regime <;> rfl

theorem forcing_of_parse {s : System α} {settings : Settings α} {f : Harmonic α}
    (h : Forcing.parse (s.force.getD "") = .ok f) : forcing s settings = (f, []) := by
  simp only [forcing, h]

theorem forcing_degradations_eq_nil {s : System α} {settings : Settings α} :
    (forcing s settings).2 = [] ↔ ∃ f : Harmonic α, Forcing.parse (s.force.getD "") = .ok f := by
  cases h : Forcing.parse (α := α) (s.force.getD "") <;> simp [forcing, h]

end Parametric

namespace Coefficients

variable {c : Coefficients α} {regime : Regime} {reference : Reference}

theorem failure?_eq_none_iff : c.failure? regime = none ↔
    c.regime = regime ∧ c.isFinite = true ∧ Arithmetic.isFinite (c.value 0) = true := by
  by_cases hr : c.regime = regime
  · cases hf : c.isFinite <;> cases hv : Arithmetic.isFinite (c.value 0) <;> simp [failure?, hr, hf, hv]
  · simp [failure?, hr]

theorem evaluation_failure : (c.evaluation regime reference).failure = c.failure? regime := by
  unfold evaluation
  cases c.failure? regime <;> rfl

/-- A signal is a closed form exactly where nothing keeps the constants from making one. -/
theorem evaluation_signal_eq_regime_iff {k : Coefficients α} :
    (c.evaluation regime reference).signal = .regime k ↔ c.failure? regime = none ∧ k = c := by
  unfold evaluation
  cases c.failure? regime <;> simp [eq_comm]

end Coefficients

theorem Response.prepare_of_system {r : Response α} {s : System α}
    (h : r.system? = .ok (some s)) (settings : Settings α) :
    r.prepare settings = .ok (Parametric.resolve r.regime s r.properties settings).prepare := by
  simp only [prepare, resolve, h]
  rfl

end Oscillator
