import Oscillator.Forcing
import Oscillator.Proofs.Expansion.Frequency
import Oscillator.Proofs.Expansion.Tower
import Oscillator.Proofs.Motion.Template
import Oscillator.Proofs.Reading.Gathering

/-! # Forcings follow their literals

The terms of a literal are added up into a constant and one wave. Its frequency is the first one met;
zero says that none has been met yet, which no term contradicts, as frequencies are positive. Waves
of nearly this frequency are added to it, and so the forcing and the literal drift apart, in proportion to
time and to the amplitudes of those waves.
-/
namespace Oscillator

open Exact Monomial

namespace Harmonic

/-- Adds to an amplitude, and sets the frequency. -/
def addWave {α : Type} [Add α] (h : Harmonic α) (wave : Wave) (amplitude frequency : α) : Harmonic α :=
  match wave with
  | .cosine => { h with cosine := h.cosine + amplitude, frequency }
  | .sine => { h with sine := h.sine + amplitude, frequency }

def addOffset {α : Type} [Add α] (h : Harmonic α) (offset : α) : Harmonic α :=
  { h with offset := h.offset + offset }

variable (h : Harmonic ℝ) (wave : Wave) (c w t : ℝ)

theorem addWave_exact : h.exact.addWave wave (real c) (real w) = (h.addWave wave c w).exact := by
  cases wave <;> rfl

theorem frequency_addWave : (h.addWave wave c w).frequency = w := by cases wave <;> rfl

/-- A wave of the same frequency adds its own value. -/
theorem wave_addWave : (h.addWave wave c h.frequency).wave t =
    h.wave t + c * wave.function (h.frequency * t) := by
  cases wave <;>
  · simp only [Harmonic.wave, addWave, Wave.function]
    ring

theorem wave_addOffset : (h.addOffset c).wave t = h.wave t + c := by
  simp only [wave, addOffset]
  ring

end Harmonic

theorem Wave.abs_function_sub_le (wave : Wave) (x y : ℝ) :
    |wave.function x - wave.function y| ≤ |x - y| := by
  cases wave with
  | cosine => exact Real.abs_cos_sub_cos_le x y
  | sine => exact Real.abs_sin_sub_sin_le x y

namespace Monomial

variable {m : Monomial Exact} {t x : ℝ}

theorem rate_eq_zero (h : (m.rate != 0) = false) : m.rate = real 0 := by
  rw [bne, Bool.not_eq_false', zero_eq, beq_real_iff] at h
  exact h

/-- A wave that has a value has a real frequency. -/
theorem exists_frequency {wave : Wave} {frequency : Exact} (hx : m.value (real t) = real x)
    (ho : m.oscillation = some ⟨wave, frequency⟩) : ∃ f, frequency = real f := by
  obtain ⟨-, -, w, -, -, hw, -⟩ := value_eq_real.mp hx
  rw [ho] at hw
  cases wave with
  | cosine =>
    obtain ⟨y, hy⟩ := exists_real_of_apply (f := .cos) hw
    obtain ⟨f, -, hf, -⟩ := mul_eq_real.mp hy
    exact ⟨f, hf⟩
  | sine =>
    obtain ⟨y, hy⟩ := exists_real_of_apply (f := .sin) hw
    obtain ⟨f, -, hf, -⟩ := mul_eq_real.mp hy
    exact ⟨f, hf⟩

end Monomial

namespace Forcing

section

variable {α : Type} [Arithmetic α] {F G : Harmonic α} {m : Monomial α} {o : Oscillation α}

/-- How far frequencies may be from each other to count as one. -/
def tolerance (frequency : α) : α := 1e-12 * Arithmetic.larger frequency 1

theorem parse_of_expand {literal : String} {e : Expr α} {ts : List (Monomial α)}
    (he : Expr.parse literal = .ok e) (hts : e.expand = .ok ts) : parse literal = ofTerms ts := by
  rw [parse, he]
  change ((e.expand.mapError ForcingError.rejected) >>= fun ts => ofTerms ts) = _
  rw [hts]
  rfl

/-- The amplitudes of all waves, each as often as its frequency says, but at least once. -/
def spread (ts : List (Monomial α)) : α :=
  ts.foldr (fun m s => match m.oscillation with
    | none => s
    | some o => Arithmetic.abs m.coefficient * Arithmetic.larger o.frequency 1 + s) 0

theorem spread_cons_constant {ts : List (Monomial α)} (ho : m.oscillation = none) :
    spread (m :: ts) = spread ts := by
  rw [spread, List.foldr_cons, ho]
  rfl

theorem spread_cons_wave {ts : List (Monomial α)} (ho : m.oscillation = some o) :
    spread (m :: ts) =
      Arithmetic.abs m.coefficient * Arithmetic.larger o.frequency 1 + spread ts := by
  rw [spread, List.foldr_cons, ho]
  rfl

/-- What a term has to be in order to be added, and what is made of it. -/
theorem addTerm_cases (h : addTerm F m = .ok G) : (m.rate != 0) = false ∧ m.timePower = 0 ∧
    ((m.oscillation = none ∧ G = F.addOffset m.coefficient) ∨
      ∃ o, m.oscillation = some o ∧
        ¬((F.frequency != 0) = true ∧
          tolerance o.frequency < Arithmetic.abs (F.frequency - o.frequency)) ∧
        G = F.addWave o.wave m.coefficient
          (if F.frequency == 0 then o.frequency else F.frequency)) := by
  unfold addTerm at h
  split at h
  case isTrue => cases h
  case isFalse =>
    split at h
    case isTrue => cases h
    case isFalse hplain =>
      rw [Bool.or_eq_true, not_or, Bool.not_eq_true, bne_iff_ne, not_not] at hplain
      refine ⟨hplain.1, hplain.2, ?_⟩
      split at h
      case h_1 ho =>
        cases h
        exact Or.inl ⟨ho, rfl⟩
      case h_2 wave f ho =>
        refine Or.inr ⟨⟨wave, f⟩, ho, ?_⟩
        dsimp only at h
        split at h
        case isTrue => cases h
        case isFalse hnear =>
          rw [Bool.and_eq_true, decide_eq_true_eq] at hnear
          refine ⟨hnear, ?_⟩
          cases wave with
          | cosine =>
            cases h
            rfl
          | sine =>
            cases h
            rfl

end

variable {F : Harmonic ℝ} {G : Harmonic Exact} {m : Monomial Exact} {ts : List (Monomial Exact)}
  {t x : ℝ}

theorem tolerance_real (f : ℝ) : tolerance (real f) = real (1e-12 * max f 1) := by
  rw [tolerance, one_eq, larger_real, ofScientific_eq, real_mul]

/-- A step in real numbers: a constant or a wave of nearly the frequency so far is added. -/
theorem addTerm_exact (h : addTerm F.exact m = .ok G) (hx : m.value (real t) = real x) :
    (m.oscillation = none ∧ G = (F.addOffset x).exact) ∨
      ∃ wave c f, m.oscillation = some ⟨wave, real f⟩ ∧ m.coefficient = real c ∧
        x = c * wave.function (f * t) ∧
        (F.frequency ≠ 0 → |F.frequency - f| ≤ 1e-12 * max f 1) ∧
        G = (F.addWave wave c (if F.frequency = 0 then f else F.frequency)).exact := by
  obtain ⟨hrate, hpower, ⟨ho, rfl⟩ | ⟨o, ho, hnear, rfl⟩⟩ := addTerm_cases h
  · have hm : m.IsPower 0 0 := ⟨rate_eq_zero hrate, hpower, ho⟩
    obtain ⟨c, hc, rfl⟩ := hm.value_eq hx
    refine Or.inl ⟨ho, ?_⟩
    rw [hc, pow_zero, mul_one, zero_mul, Real.exp_zero, mul_one]
    rfl
  · obtain ⟨wave, frequency⟩ := o
    obtain ⟨f, rfl⟩ := exists_frequency hx ho
    have hm : m.IsWave 0 f := ⟨rate_eq_zero hrate, hpower, wave, ho⟩
    obtain ⟨wave', c, ho', hc, rfl⟩ := hm.value_eq hx
    obtain ⟨rfl, -⟩ : wave = wave' ∧ f = f := by
      rw [ho] at ho'
      cases ho'
      exact ⟨rfl, rfl⟩
    refine Or.inr ⟨wave, c, f, ho, hc, ?_, ?_, ?_⟩
    · rw [zero_mul, Real.exp_zero, one_mul]
    · intro hF
      have hset : (F.exact.frequency != 0) = true := bne_zero_iff.mpr (by simpa [Harmonic.exact] using hF)
      have hle : ¬tolerance (real f) < Arithmetic.abs (real F.frequency - real f) :=
        fun hfar => hnear ⟨hset, hfar⟩
      rwa [tolerance_real, real_sub, abs_real, real_lt, not_lt] at hle
    · rw [hc, ← Harmonic.addWave_exact]
      congr 1
      change (if real F.frequency == 0 then real f else real F.frequency) = _
      by_cases hF : F.frequency = 0
      · rw [if_pos hF, hF, zero_eq, if_pos (by simp)]
      · rw [if_neg hF, zero_eq, if_neg (by simpa using hF)]

/-- The value `y` that is read for terms of the value `x` at the time `t`, their waves taken to have
the frequency `w`. -/
structure Agrees (t w : ℝ) (ts : List (Monomial Exact)) (y x : ℝ) : Prop where
  /-- The difference grows with time no faster than the frequencies differ. -/
  near : ∃ s, spread ts = real s ∧ |y - x| ≤ 1e-12 * |t| * s
  exact : EveryWave (fun o => o.frequency = real w) ts → y = x

theorem agrees_nil (t w : ℝ) : Agrees t w [] 0 0 :=
  ⟨⟨0, zero_eq, by simp⟩, fun _ => rfl⟩

variable {w y : ℝ}

theorem Agrees.cons_constant (h : Agrees t w ts y x) (ho : m.oscillation = none) (c : ℝ) :
    Agrees t w (m :: ts) (c + y) (c + x) := by
  obtain ⟨s, hs, hle⟩ := h.near
  refine ⟨⟨s, (spread_cons_constant ho).trans hs, ?_⟩, fun heq => ?_⟩
  · rwa [add_sub_add_left_eq_sub]
  · rw [h.exact fun m' hm' => heq m' (List.mem_cons_of_mem m hm')]

theorem Agrees.cons_wave (h : Agrees t w ts y x) {wave : Wave} {c f : ℝ}
    (ho : m.oscillation = some ⟨wave, real f⟩) (hc : m.coefficient = real c)
    (hnear : |w - f| ≤ 1e-12 * max f 1) :
    Agrees t w (m :: ts) (c * wave.function (w * t) + y) (c * wave.function (f * t) + x) := by
  obtain ⟨s, hs, hle⟩ := h.near
  refine ⟨⟨|c| * max f 1 + s, ?_, ?_⟩, fun heq => ?_⟩
  · rw [spread_cons_wave ho, hc, hs, one_eq, larger_real]
    rfl
  · have hwave : |wave.function (w * t) - wave.function (f * t)| ≤ 1e-12 * max f 1 * |t| :=
      calc |wave.function (w * t) - wave.function (f * t)|
        _ ≤ |w * t - f * t| := wave.abs_function_sub_le _ _
        _ = |w - f| * |t| := by rw [← sub_mul, abs_mul]
        _ ≤ 1e-12 * max f 1 * |t| := by gcongr
    calc |c * wave.function (w * t) + y - (c * wave.function (f * t) + x)|
      _ = |c * (wave.function (w * t) - wave.function (f * t)) + (y - x)| := by congr 1; ring
      _ ≤ |c| * |wave.function (w * t) - wave.function (f * t)| + |y - x| := by
        rw [← abs_mul]
        exact abs_add_le _ _
      _ ≤ |c| * (1e-12 * max f 1 * |t|) + 1e-12 * |t| * s := by gcongr
      _ = 1e-12 * |t| * (|c| * max f 1 + s) := by ring
  · have hf : f = w := Exact.real.inj (heq m List.mem_cons_self _ ho)
    rw [hf, h.exact fun m' hm' => heq m' (List.mem_cons_of_mem m hm')]

/-- Once a frequency is set, all waves are read at it. -/
theorem foldlM_addTerm_set (h : ts.foldlM addTerm F.exact = .ok G)
    (hx : sumValue ts (real t) = real x) (hF : F.frequency ≠ 0) :
    ∃ K : Harmonic ℝ, G = K.exact ∧ K.frequency = F.frequency ∧
      ∃ y, K.wave t = F.wave t + y ∧ Agrees t F.frequency ts y x := by
  induction ts generalizing F x with
  | nil =>
    cases h
    rw [sumValue_nil] at hx
    cases hx
    exact ⟨F, rfl, rfl, 0, (add_zero _).symm, agrees_nil t _⟩
  | cons m ts ih =>
    rw [List.foldlM_cons] at h
    obtain ⟨F₁, hstep, hrest⟩ := Except.bind_eq_ok.mp h
    obtain ⟨z, x, hm, hts, rfl⟩ := sumValue_cons_eq_real.mp hx
    rcases addTerm_exact hstep hm with ⟨ho, rfl⟩ | ⟨wave, c, f, ho, hc, rfl, hnear, rfl⟩
    · obtain ⟨K, rfl, hK, y, hwave, hagrees⟩ := ih hrest hts hF
      refine ⟨K, rfl, hK, z + y, ?_, hagrees.cons_constant ho z⟩
      rw [hwave, Harmonic.wave_addOffset, add_assoc]
    · rw [if_neg hF] at hrest
      have hset := F.frequency_addWave wave c F.frequency
      obtain ⟨K, rfl, hK, y, hwave, hagrees⟩ := ih hrest hts (by rw [hset]; exact hF)
      rw [hset] at hK hagrees
      refine ⟨K, rfl, hK, c * wave.function (F.frequency * t) + y, ?_,
        hagrees.cons_wave ho hc (hnear hF)⟩
      rw [hwave, Harmonic.wave_addWave, add_assoc]

/-- As long as no frequency is set there is only an offset; the first wave sets it. A frequency that all
waves have in common is the one that is set. -/
theorem foldlM_addTerm_unset {a : ℝ}
    (h : ts.foldlM addTerm (⟨a, 0, 0, 0⟩ : Harmonic ℝ).exact = .ok G)
    (hx : sumValue ts (real t) = real x)
    (hpos : EveryWave (fun o => ∀ f : ℝ, o.frequency = real f → 0 < f) ts) :
    ∃ K : Harmonic ℝ, G = K.exact ∧ (∃ y, K.wave t = a + y ∧ Agrees t K.frequency ts y x) ∧
      ∀ v, EveryWave (fun o => o.frequency = v) ts →
        EveryWave (fun o => o.frequency = real K.frequency) ts := by
  induction ts generalizing a x with
  | nil =>
    cases h
    rw [sumValue_nil] at hx
    cases hx
    refine ⟨_, rfl, ⟨0, ?_, agrees_nil t _⟩, fun _ h => nofun⟩
    simp [Harmonic.wave]
  | cons m ts ih =>
    rw [List.foldlM_cons] at h
    obtain ⟨F, hstep, hrest⟩ := Except.bind_eq_ok.mp h
    obtain ⟨z, x, hm, hts, rfl⟩ := sumValue_cons_eq_real.mp hx
    obtain ⟨hfirst, hpos⟩ := List.forall_mem_cons.mp hpos
    rcases addTerm_exact hstep hm with ⟨ho, rfl⟩ | ⟨wave, c, f, ho, hc, rfl, -, rfl⟩
    · obtain ⟨K, rfl, ⟨y, hwave, hagrees⟩, hcommon⟩ := ih hrest hts hpos
      refine ⟨K, rfl, ⟨z + y, ?_, hagrees.cons_constant ho z⟩, fun v hv => ?_⟩
      · rw [hwave, add_assoc]
      · refine List.forall_mem_cons.mpr ⟨fun o ho' => ?_, hcommon v (List.forall_mem_cons.mp hv).2⟩
        rw [ho] at ho'
        cases ho'
    · rw [if_pos rfl] at hrest
      have hset := (⟨a, 0, 0, 0⟩ : Harmonic ℝ).frequency_addWave wave c f
      have hf : f ≠ 0 := (hfirst _ ho f rfl).ne'
      obtain ⟨K, rfl, hK, y, hwave, hagrees⟩ :=
        foldlM_addTerm_set hrest hts (by rw [hset]; exact hf)
      rw [hset] at hK hagrees
      subst hK
      refine ⟨K, rfl, ⟨c * wave.function (K.frequency * t) + y, ?_, hagrees.cons_wave ho hc ?_⟩,
        fun v hv => ?_⟩
      · rw [hwave, ← add_assoc]
        cases wave <;> simp [Harmonic.addWave, Harmonic.wave, Wave.function]
      · rw [sub_self, abs_zero]
        positivity
      · have hv' : real K.frequency = v := hv m List.mem_cons_self _ ho
        rwa [hv']

/-- At every time at which the literal is defined, the forcing has its value up to the tolerance that
frequencies may differ by, and exactly that value if all waves have one frequency. The way
exponents of time are stored is of no account as long as it has not changed one. -/
theorem parse_follows_literal (store : Int → Int) {literal : String} {e : Expr Exact}
    {F : Harmonic Exact}
    (he : letI := storing store; Expr.parse literal = .ok e)
    (hF : letI := storing store; parse literal = .ok F)
    (hts : e.expand = .ok ts) (hstored : letI := storing store; e.expand = .ok ts)
    (hd : e.IsDefinedAt (fun _ => real 1) (real t)) :
    Arithmetic.abs (F.value (real t) - e.value (fun _ => real 1) (real t)) ≤
        1e-12 * Arithmetic.abs (real t) * spread ts ∧
      ((∃ v, EveryWave (fun o => o.frequency = v) ts) →
        F.value (real t) = e.value (fun _ => real 1) (real t)) := by
  obtain ⟨x, hx⟩ := Expr.exists_value_of_expand (fun _ => ⟨1, rfl⟩) hts hd
  have hsum : sumValue ts (real t) = real x := Expr.expand_sumValue hts (fun _ _ _ _ => rfl) hx
  have hfold : ts.foldlM addTerm (⟨0, 0, 0, 0⟩ : Harmonic ℝ).exact = .ok F := by
    have hofTerms := (@parse_of_expand Exact (storing store) literal e ts he hstored).symm.trans hF
    have hzero : (⟨0, 0, 0, 0⟩ : Harmonic ℝ).exact = .zero := by
      rw [Harmonic.zero, zero_eq]
      rfl
    rw [hzero]
    exact hofTerms
  obtain ⟨K, rfl, ⟨y, hwave, hagrees⟩, hcommon⟩ :=
    foldlM_addTerm_unset hfold hsum (Expr.expand_frequency_pos hts)
  rw [zero_add] at hwave
  have hvalue : K.exact.value (real t) = real y := by rw [K.draws_wave t, hwave]
  rw [hvalue, hx]
  refine ⟨?_, fun ⟨v, hv⟩ => ?_⟩
  · obtain ⟨s, hs, hle⟩ := hagrees.near
    rw [hs, ofScientific_eq]
    exact hle
  · rw [hagrees.exact (hcommon v hv)]

theorem parse_cos_time {α : Type} [Arithmetic α] :
    Expr.parse (α := α) "cos(t)" = .ok (.call .cos (.symbol Expr.timeName)) := by
  have hscan : Token.ofText (α := α) "cos(t)" =
      [.func .cos, .opening .paren, .symbol "t", .closing .paren] := by
    simp [Token.ofText, Token.scan, Text.isBlank, Token.isNumeralChar, Text.isLetter,
      Token.ofWord?, Token.ofMark?, Token.index, Token.letters, Func.ofName?, Func.all, Func.name]
  rw [Expr.parse, hscan]
  exact ((Expr.isOperand_symbol Expr.timeName).isSum.call .cos .paren).isSum.ofTokens

theorem ofTerms_cosine : ofTerms [.oscillating (real 1) .cosine (real 1)] =
    .ok (⟨0, 1, 0, 1⟩ : Harmonic ℝ).exact := by
  simp [ofTerms, addTerm, oscillating, Harmonic.zero, Harmonic.exact, bne, pure, Except.pure,
    Except.ok_bind]

theorem parse_cosine : parse (α := Exact) "cos(t)" = .ok (⟨0, 1, 0, 1⟩ : Harmonic ℝ).exact :=
  (parse_of_expand parse_cos_time Expr.expand_cos_time).trans ofTerms_cosine

theorem ofTerms_one : ofTerms [timeTo 0] = .ok (⟨1, 0, 0, 0⟩ : Harmonic ℝ).exact := by
  simp [ofTerms, addTerm, timeTo, Harmonic.zero, Harmonic.exact, bne, pure, Except.pure,
    Except.ok_bind]

theorem parse_follows_literal_cosine :
    @Expr.parse Exact inWords "cos(t)" = .ok (.call .cos (.symbol Expr.timeName)) ∧
      @parse Exact inWords "cos(t)" = .ok (⟨0, 1, 0, 1⟩ : Harmonic ℝ).exact ∧
      (⟨0, 1, 0, 1⟩ : Harmonic ℝ).exact.value (real 2) =
        (Expr.call .cos (.symbol Expr.timeName)).value (fun _ => real 1) (real 2) := by
  have hp : @Expr.parse Exact inWords "cos(t)" = .ok (.call .cos (.symbol Expr.timeName)) :=
    @parse_cos_time Exact inWords
  have hstored : @Expr.expand Exact inWords (.call .cos (.symbol Expr.timeName)) =
      .ok [.oscillating (real 1) .cosine (real 1)] := by
    obtain ⟨p, a, hp, ha, hts⟩ := Expr.expand_call.mp Expr.expand_cos_time
    exact (@Expr.expand_call Exact inWords _ _ _).mpr ⟨p, a, hp, ha, hts⟩
  have hF : @parse Exact inWords "cos(t)" = .ok (⟨0, 1, 0, 1⟩ : Harmonic ℝ).exact :=
    (@parse_of_expand Exact inWords _ _ _ hp hstored).trans ofTerms_cosine
  have hd : (Expr.call .cos (.symbol Expr.timeName)).IsDefinedAt (fun _ => real 1) (real 2) := by
    simp [Expr.IsDefinedAt]
  refine ⟨hp, hF, (parse_follows_literal _ hp hF Expr.expand_cos_time hstored hd).2 ⟨real 1, ?_⟩⟩
  intro m hm o ho
  rw [List.mem_singleton.mp hm] at ho
  cases ho
  rfl

/-- Exponents of a tower whose product is `2 ^ 32`. -/
def wrapping : List ℕ := [8, 8, 8, 8, 8, 8, 8, 8, 8, 8, 4]

theorem text_wrapping : Expr.timeName ++ Token.towerText wrapping = "t^8^8^8^8^8^8^8^8^8^8^4" := by
  decide

/-- In words of 32 bits the power of time with these exponents is read as the constant one, which is far
from it. -/
theorem parse_wrapping_not_followed :
    ∃ (e : Expr Exact) (F : Harmonic Exact) (ts : List (Monomial Exact)),
      @Expr.parse Exact inWords "t^8^8^8^8^8^8^8^8^8^8^4" = .ok e ∧
      @parse Exact inWords "t^8^8^8^8^8^8^8^8^8^8^4" = .ok F ∧
      @Expr.expand Exact inWords e = .ok ts ∧
      e.IsDefinedAt (fun _ => real 1) (real 2) ∧
      ¬Arithmetic.abs (F.value (real 2) - e.value (fun _ => real 1) (real 2)) ≤
        1e-12 * Arithmetic.abs (real 2) * spread ts := by
  have hp := @Expr.parse_tower Exact inWords wrapping
  rw [text_wrapping] at hp
  have hts := Expr.expand_tower (show ∀ k ∈ wrapping, k ≤ Expr.maxPower by decide)
  have hwrapped : (wrapping.prod : ℤ).bmod 0x100000000 = 0 := by decide
  rw [hwrapped] at hts
  have hF := (@parse_of_expand Exact inWords _ _ _ hp hts).trans ofTerms_one
  have hd : (Expr.symbol Expr.timeName).IsDefinedAt (fun _ => real 1) (real 2) := trivial
  have htime : (Expr.symbol Expr.timeName).value (fun _ => real 1) (real 2) = real 2 := if_pos rfl
  refine ⟨_, _, _, hp, hF, hts, Expr.isDefinedAt_tower hd htime wrapping, fun hle => ?_⟩
  have hspread : spread [timeTo 0] = real 0 := zero_eq
  have hpow : (1 : ℝ) < 2 ^ wrapping.prod := one_lt_pow₀ one_lt_two (by decide)
  have hvalue := Expr.value_tower htime wrapping
  have hone : (⟨1, 0, 0, 0⟩ : Harmonic ℝ).exact.value (real 2) = real 1 := by
    rw [Harmonic.draws_wave]
    simp [Harmonic.wave]
  have hfar : Arithmetic.abs (real 1 - real (2 ^ wrapping.prod)) ≤
      1e-12 * Arithmetic.abs (real 2) * real 0 := by
    rw [← hone, ← hvalue, ← hspread]
    exact hle
  rw [real_sub, abs_real, ofScientific_eq, abs_real, real_mul, real_mul, mul_zero, real_le,
    abs_nonpos_iff, sub_eq_zero] at hfar
  exact hpow.ne hfar

end Forcing

end Oscillator
