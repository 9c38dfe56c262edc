import Oscillator.Plot
import Oscillator.Proofs.Motion.Spring

/-! # Systems of the same equation

A system is resolved through its frequency, its decay rate and its damping ratio alone, and these do not
change when mass, stiffness and damping are multiplied by one number. So the normalized equation says as
much as any system of a mass that has this equation.
-/
namespace Oscillator

namespace Spring

variable (o : Spring) {m : ℝ}

/-- The same motion at another mass. -/
def scaled (hm : 0 < m) : Spring where
  mass := m * o.mass
  stiffness := m * o.stiffness
  damping := m * o.damping
  mass_pos := mul_pos hm o.mass_pos
  stiffness_pos := mul_pos hm o.stiffness_pos
  damping_nonneg := mul_nonneg hm.le o.damping_nonneg

theorem frequency_scaled (hm : 0 < m) : (o.scaled hm).frequency = o.frequency := by
  rw [frequency, frequency, scaled, mul_div_mul_left _ _ hm.ne']

theorem rate_scaled (hm : 0 < m) : (o.scaled hm).rate = o.rate := by
  rw [rate, rate, scaled, mul_left_comm, mul_div_mul_left _ _ hm.ne']

theorem ratio_scaled (hm : 0 < m) : (o.scaled hm).ratio = o.ratio := by
  have hroot : √(m * o.stiffness * (m * o.mass)) = m * √(o.stiffness * o.mass) := by
    rw [mul_mul_mul_comm, Real.sqrt_mul (mul_self_nonneg m), Real.sqrt_mul_self hm.le]
  rw [ratio, ratio, scaled, hroot, mul_left_comm, mul_div_mul_left _ _ hm.ne']

end Spring

theorem System.HasConstants.ofSystem_scaled {s s' : System Exact} {o : Spring} {m : ℝ} {hm : 0 < m}
    (h : s.HasConstants o) (h' : s'.HasConstants (o.scaled hm)) :
    Characteristics.ofSystem s' = Characteristics.ofSystem s := by
  rw [h'.ofSystem_eq, h.ofSystem_eq, o.frequency_scaled hm, o.rate_scaled hm, o.ratio_scaled hm]

namespace Parametric

variable {α : Type} [Arithmetic α]

/-- A system enters its resolution through its characteristics, its initial state and its force. -/
theorem resolve_eq_of_ofSystem_eq {s s' : System α}
    (hc : Characteristics.ofSystem s' = Characteristics.ofSystem s)
    (hx : s'.initialPosition = s.initialPosition) (hv : s'.initialVelocity = s.initialVelocity)
    (hf : s'.force = s.force) (regime : Regime) (properties : Option (Properties α))
    (settings : Settings α) :
    resolve regime s' properties settings =
      { resolve regime s properties settings with system := some s' } := by
  have hforcing : forcing s' settings = forcing s settings := by rw [forcing, forcing, hf]
  cases regime <;> simp only [resolve, hc, hx, hv, hforcing]

end Parametric

/-- The spring at unit mass. -/
def Spring.ofUnitMass {stiffness damping : ℝ} (hk : 0 < stiffness) (hd : 0 ≤ damping) : Spring where
  mass := 1
  stiffness
  damping
  mass_pos := Real.zero_lt_one
  stiffness_pos := hk
  damping_nonneg := hd

theorem System.HasConstants.isValid {s : System Exact} {o : Spring} (h : s.HasConstants o) :
    s.IsValid where
  mass := by
    rw [h.mass]
    exact ⟨rfl, by simpa using o.mass_pos⟩
  stiffness := by
    rw [h.stiffness]
    exact ⟨rfl, by simpa using o.stiffness_pos⟩
  damping := by
    rw [h.damping]
    exact ⟨rfl, by simpa using o.damping_nonneg⟩

namespace Parameters

variable (p : Parameters Exact)

/-- The parameters of a normalized equation, with the initial state and the force as they are. -/
def normalized (beta omegaSquared : ℝ) : Parameters Exact :=
  { p with
    mass := none, stiffness := none
    beta := some (.real beta), omegaSquared := some (.real omegaSquared) }

/-- The parameters of a system of a mass, with the initial state and the force as they are. -/
def physical (mass stiffness damping : ℝ) : Parameters Exact :=
  { p with
    mass := some (.real mass), stiffness := some (.real stiffness), damping := some (.real damping) }

/-- The system of a spring, with the initial state and the force of the parameters. -/
noncomputable def systemOf (o : Spring) : System Exact :=
  p.withConstants (.real o.mass) (.real o.stiffness) (.real o.damping)

theorem systemOf_hasConstants (o : Spring) : (p.systemOf o).HasConstants o := ⟨rfl, rfl, rfl⟩

variable {p}

theorem Gives.system?_eq {o : Spring} {mass stiffness damping : ℝ}
    (h : p.Gives (.real mass) (.real stiffness) (.real damping)) (hm : mass = o.mass)
    (hk : stiffness = o.stiffness) (hd : damping = o.damping) :
    p.system? = .ok (some (p.systemOf o)) := by
  subst hm hk hd
  exact system?_eq_some_iff.mpr ⟨_, _, _, h, (p.systemOf_hasConstants o).isValid, rfl⟩

variable {beta omegaSquared m : ℝ} (hb : 0 ≤ beta) (hw : 0 < omegaSquared)

theorem system?_normalized : (p.normalized beta omegaSquared).system? =
    .ok (some (p.systemOf (.ofUnitMass hw (mul_nonneg zero_le_two hb)))) := by
  have hgives : (p.normalized beta omegaSquared).Gives 1 (.real omegaSquared) (2 * .real beta) :=
    .normalized rfl rfl rfl (by simpa [normalized] using hb)
  rw [Exact.ofNat_eq, Exact.ofNat_eq, Exact.real_mul, Nat.cast_one] at hgives
  exact hgives.system?_eq rfl rfl rfl

theorem system?_physical (hm : 0 < m) :
    (p.physical m (m * omegaSquared) (2 * m * beta)).system? =
      .ok (some (p.systemOf ((Spring.ofUnitMass hw (mul_nonneg zero_le_two hb)).scaled hm))) := by
  have hgives : (p.physical m (m * omegaSquared) (2 * m * beta)).Gives (.real m)
      (.real (m * omegaSquared)) (.real (2 * m * beta)) := .physical rfl rfl
  exact hgives.system?_eq (mul_one m).symm rfl (mul_assoc 2 m beta ▸ mul_left_comm 2 m beta)

end Parameters

namespace Response

theorem resolve_of_system {α : Type} [Arithmetic α] {r : Response α} {s : System α}
    (h : r.system? = .ok (some s)) (settings : Settings α) :
    r.resolve settings = .ok (Parametric.resolve r.regime s r.properties settings) := by
  simp only [resolve, h]

/-- A response tells the same of a motion by its normalized equation and by a system of any mass with that
equation: the characteristics, the constants and the degradations are equal, and so are all
plots. -/
theorem resolve_normalized_eq_physical (r : Response Exact) (p : Parameters Exact)
    {beta omegaSquared : ℝ} (hb : 0 ≤ beta) (hw : 0 < omegaSquared) (settings : Settings Exact) :
    let normalized := { r with parameters := some (p.normalized beta omegaSquared) }
    ∃ q, normalized.resolve settings = .ok q ∧ ∀ m : ℝ, 0 < m →
      let physical := { r with parameters := some (p.physical m (m * omegaSquared) (2 * m * beta)) }
      ∃ q', physical.resolve settings = .ok q' ∧
        q'.characteristics = q.characteristics ∧ q'.coefficients = q.coefficients ∧
        q'.degradations = q.degradations ∧
        physical.plot settings = normalized.plot settings := by
  intro normalized
  have hnormalized := resolve_of_system (r := normalized)
    (p.system?_normalized hb hw) settings
  refine ⟨_, hnormalized, fun m hm => ?_⟩
  intro physical
  have hphysical := resolve_of_system (r := physical)
    (p.system?_physical hb hw hm) settings
  let o : Spring := .ofUnitMass hw (mul_nonneg zero_le_two hb)
  have hsame : Characteristics.ofSystem (p.systemOf (o.scaled hm)) =
      Characteristics.ofSystem (p.systemOf o) :=
    (p.systemOf_hasConstants _).ofSystem_scaled (p.systemOf_hasConstants _)
  have hscaled := Parametric.resolve_eq_of_ofSystem_eq hsame rfl rfl rfl r.regime r.properties settings
  rw [hscaled] at hphysical
  refine ⟨_, hphysical, rfl, rfl, rfl, ?_⟩
  rw [plot, plot, prepare, prepare, hphysical, hnormalized]
  rfl

/-- A forced response that says no more than its parameters. -/
def driven (p : Parameters Exact) : Response Exact := ⟨.forced, none, none, some p, none, none⟩

theorem resolve_normalized_eq_physical_driven :
    let p : Parameters Exact := ⟨none, none, none, some "cos(2t)", some 0, some 0, none, none⟩
    ∃ q q', (driven (p.normalized 1 5)).resolve .standard = .ok q ∧
      (driven (p.physical 3 15 6)).resolve .standard = .ok q' ∧
      q'.characteristics = q.characteristics ∧ q'.coefficients = q.coefficients ∧
      q'.degradations = q.degradations ∧
      (driven (p.physical 3 15 6)).plot .standard = (driven (p.normalized 1 5)).plot .standard := by
  intro p
  obtain ⟨q, hq, h⟩ := resolve_normalized_eq_physical (driven p) p zero_le_one
    (show (0 : ℝ) < 5 by norm_num) .standard
  obtain ⟨q', hq', h'⟩ := h 3 (by norm_num)
  have hk : (3 * 5 : ℝ) = 15 := by norm_num
  have hd : (2 * 3 * 1 : ℝ) = 6 := by norm_num
  rw [hk, hd] at hq' h'
  exact ⟨q, q', hq, hq', h'⟩

end Response

end Oscillator
