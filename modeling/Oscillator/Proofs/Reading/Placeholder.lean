import Oscillator.Proofs.Expansion.Replacement
import Oscillator.Proofs.Reading.LikeTerms
import Oscillator.Proofs.Reading.Opposite

/-! # The placeholder value

A solution with symbols is read as if the placeholder value stood in their place. The terms get the value
after the expansion, once for each symbol that they name. So this holds as long as a symbol is
multiplied with itself only where it counts as one, and as long as the powers of symbols are powers that
sums are raised to.
-/
namespace Oscillator

open Exact Monomial

namespace Textual

section

variable {α : Type} [Arithmetic α]

/-- The constants that a regime takes from an expression, with the placeholder value for its symbols. -/
def readCoefficients (regime : Regime) (defaults : TextDefaults α) (e : Expr α) : Coefficients α :=
  (coefficients regime defaults (e.expandLenient.terms.map (substitute defaults.placeholder))).1

theorem resolve_coefficients {regime : Regime} {solution : String} {properties : Option (Properties α)}
    {defaults : TextDefaults α} {e : Expr α} (h : Expr.parse (rightHandSide solution) = .ok e) :
    (resolve regime solution properties defaults).coefficients = readCoefficients regime defaults e := by
  have hterms : readTerms (rightHandSide solution) = e.expandLenient.terms := by rw [readTerms, h]
  rw [readCoefficients, ← hterms]
  rfl

end

variable {p : ℝ} {defaults : TextDefaults Exact} {e : Expr Exact}

theorem substitute_terms_of_isClosed (h : e.IsClosed) (x : Exact) :
    e.expandLenient.terms.map (substitute x) = e.expandLenient.terms := by
  refine (List.map_congr_left fun m hm => ?_).trans (List.map_id _)
  exact substitute_of_nil (h.symbols_eq_nil (Expr.namesSymbols_termInvariant.expandLenient e m hm)) x

theorem merges_stored (store : ℤ → ℤ) {ts us : List (Monomial Exact)} (h : Merges ts us) :
    Merges (ts.map (@stored Exact (storing store))) (us.map (@stored Exact (storing store))) := by
  refine h.lift fun ts us hstep => MergeStep.merges ?_
  obtain ⟨before, between, after, m, c⟩ := hstep
  simp only [List.map_append, List.map_cons]
  exact MergeStep.mk _ _ _ (@stored Exact (storing store) m) c

/-- Exponents of time can be stored once the terms have got their values. -/
theorem readCoefficients_storing {store : ℤ → ℤ}
    (hstore : @Arithmetic.StoresInWords Exact (storing store)) (regime : Regime)
    (defaults : TextDefaults Exact) (e : Expr Exact) :
    @readCoefficients Exact (storing store) regime defaults e = (coefficients regime defaults
      ((e.expandLenient.terms.map (substitute defaults.placeholder)).map
        (@stored Exact (storing store)))).1 := by
  have hterms : (@Expr.expandLenient Exact (storing store) e).terms =
      e.expandLenient.terms.map (@stored Exact (storing store)) :=
    congrArg Expr.Salvage.terms (@Expr.expandLenient_stored Exact (storing store) hstore e)
  change (coefficients regime defaults ((@Expr.expandLenient Exact (storing store) e).terms.map
    (substitute defaults.placeholder))).1 = _
  rw [hterms, List.map_map, List.map_map]
  rfl

/-- Reading with a placeholder value is reading with that value in place of the symbols, for every regime:
symbols are factors or bases of powers, a power whose base becomes constant is one that is multiplied
out, and either the value is one or no symbol is multiplied with itself. In which words exponents of time
are stored does not matter. -/
theorem readCoefficients_replaceSymbols {store : ℤ → ℤ}
    (hstore : @Arithmetic.StoresInWords Exact (storing store)) (hp : p ≠ 0)
    (hdefaults : defaults.placeholder = real p) (hf : e.SymbolsAreFactors) (hk : e.KeepsPowers (real p))
    (hc : p = 1 ∨ e.IsMultilinear) (regime : Regime) : letI := storing store
    readCoefficients regime defaults e = readCoefficients regime defaults (e.replaceSymbols (real p)) ∧
      ∀ solution properties, Expr.parse (rightHandSide solution) = .ok e →
        (resolve regime solution properties defaults).coefficients =
          readCoefficients regime defaults (e.replaceSymbols (real p)) := by
  have hread : @readCoefficients Exact (storing store) regime defaults e =
      @readCoefficients Exact (storing store) regime defaults (e.replaceSymbols (real p)) := by
    rw [readCoefficients_storing hstore, readCoefficients_storing hstore,
      substitute_terms_of_isClosed (e.isClosed_replaceSymbols (real p)), hdefaults]
    have hmerges := merges_stored store (Expr.reduces_expandLenient hp hf hk hc)
    exact congrArg Prod.fst (coefficients_merges hmerges regime defaults)
  exact ⟨hread, fun solution properties h =>
    (@resolve_coefficients Exact (storing store) _ _ _ _ _ h).trans hread⟩

/-! Constants times a decay, and how the critical regime reads them. -/

theorem expand_decay : (Expr.decay : Expr Exact).expand = .ok [exponential (real 1) (real (-1))] := by
  have hslope : (Expr.negate (.symbol (α := Exact) Expr.timeName)).linearIn Expr.timeName =
      some ⟨real (-1), real 0⟩ := by
    simp [Expr.linearIn, Linear.negate]
  refine Expr.expand_call.mpr ⟨_, _, hslope, rfl, ?_⟩
  simp [nonzero, exponential, bne]

theorem expand_mul_decay {cs : List (ℝ × Names)}
    (h : e.expand = .ok (cs.map fun c => ⟨real c.1, 0, 0, none, c.2⟩)) (hcs : ∀ c ∈ cs, c.1 ≠ 0) :
    (Expr.binary .mul e .decay).expand = .ok (cs.map fun c => ⟨real c.1, real (-1), 0, none, c.2⟩) := by
  refine Expr.expand_mul.mpr ⟨_, _, _, h, expand_decay, ?_, nonzero_eq_self.mpr ?_⟩
  · rw [products, List.flatMap_map, List.map_map, List.map_eq_flatMap]
    refine List.flatMap_congr fun c _ => ?_
    simp [Monomial.mul, exponential, Names.union]
    rfl
  · intro m hm
    obtain ⟨c, hc, rfl⟩ := List.mem_map.mp hm
    exact bne_zero_iff.mpr (by simpa using hcs c hc)

theorem foldl_add_real (cs : List ℝ) (x : ℝ) :
    (cs.map real).foldl (· + ·) (real x) = real (x + cs.sum) := by
  induction cs generalizing x with
  | nil => simp
  | cons c cs ih => simp [ih, add_assoc]

theorem critical_exponentials (defaults : TextDefaults Exact) {cs : List ℝ} (hcs : cs ≠ []) :
    (critical defaults (cs.map fun c => exponential (real c) (real (-1)))).1 =
      .critical (real cs.sum) (real 0) (real 1) := by
  obtain ⟨c, cs, rfl⟩ := List.exists_cons_of_ne_nil hcs
  have hsame : sameRate (real 1) (real 1) = true := by
    rw [sameRate, one_eq, real_sub, sub_self, abs_real, abs_real, larger_real, ofScientific_eq, real_mul]
    norm_num
  simp [critical, exponential, List.filter_map, Function.comp_def, orDefault, amplitudes, hsame]
  exact foldl_add_real cs c

/-- In the terms of a product with the decay every symbol has the placeholder value. -/
theorem readCoefficients_mul_decay (hdefaults : defaults.placeholder = real p) (cs : List (ℝ × Names))
    (h : e.expand = .ok (cs.map fun c => ⟨real c.1, 0, 0, none, c.2⟩)) (hcs : ∀ c ∈ cs, c.1 ≠ 0)
    (hne : cs ≠ []) : @readCoefficients Exact inWords .critical defaults (.binary .mul e .decay) =
      .critical (real (cs.map fun c => c.1 * p ^ c.2.length).sum) (real 0) (real 1) := by
  rw [readCoefficients_storing Expr.storesInWords_exact, Expr.expandLenient_eq_iff.mpr (expand_mul_decay h hcs),
    ← critical_exponentials defaults (List.map_eq_nil_iff.not.mpr hne), coefficients, List.map_map, List.map_map,
    List.map_map]
  refine congrArg (fun ts => (critical defaults ts).1) (List.map_congr_left fun c _ => ?_)
  have hzero := @Arithmetic.StoresInWords.zero Exact inWords Expr.storesInWords_exact
  simp [stored, substitute, exponential, hdefaults, foldl_mul, hzero]

theorem symbolsAreFactors_mul_decay : (Expr.binary .mul e .decay).SymbolsAreFactors ↔ e.SymbolsAreFactors := by
  simp [Expr.SymbolsAreFactors, Expr.decay, Expr.IsClosed, Expr.IsFree]

theorem expand_of_isFree {name : String} (h : Expr.IsFree name) :
    (Expr.symbol (α := Exact) name).expand = .ok [⟨real 1, 0, 0, none, [name]⟩] := by
  rw [Expr.expand_symbol, if_neg h.1, if_neg h.2]
  simp [nonzero, Monomial.symbol, bne]

/-- A sum of two constants. -/
def constantsSum : Expr Exact := .binary .add (.symbol "C1") (.symbol "C2")

theorem expand_constantsSum :
    constantsSum.expand = .ok [⟨real 1, 0, 0, none, ["C1"]⟩, ⟨real 1, 0, 0, none, ["C2"]⟩] :=
  Expr.expand_add.mpr ⟨_, _, expand_of_isFree (by decide), expand_of_isFree (by decide), rfl⟩

theorem constantsSum_isMultiplied :
    constantsSum.PowerIsMultiplied (real 2) ((2 : ℕ) : Exact) := by
  refine ⟨2, 2, by decide, rfl, rfl, by norm_num, _, expand_constantsSum, ?_⟩
  simp [isConstant]

theorem constantsSum_replaceSymbols : constantsSum.replaceSymbols (real 1) = Expr.onePlusOne := by
  simp [constantsSum, Expr.replaceSymbols, Expr.IsFree, Expr.timeName, Expr.eulerName, Expr.onePlusOne]

theorem constantValue_onePlusOne : Expr.onePlusOne.constantValue = some (real 2) :=
  Expr.constantValue_eq_some.mpr ⟨_, Expr.linearIn_onePlusOne, Linear.isConstant_iff.mpr rfl, rfl⟩

/-- The expression `(C1 + C2) ^ 2 * e ^ (-t)`. -/
noncomputable def squaredConstants : Expr Exact :=
  .binary .mul (.binary .pow constantsSum (.number (2 : ℕ))) Expr.decay

/-- The standard stand-ins, with another placeholder value. -/
noncomputable def withPlaceholder (p : ℝ) : TextDefaults Exact :=
  { TextDefaults.standard with placeholder := real p }

/-- The square of a sum at the value one, and a sum at the value two, which is read as four. -/
theorem readCoefficients_constants :
    @Arithmetic.StoresInWords Exact inWords ∧
      ((TextDefaults.standard : TextDefaults Exact).placeholder = real 1 ∧
        squaredConstants.SymbolsAreFactors ∧ squaredConstants.KeepsPowers (real 1) ∧
        @readCoefficients Exact inWords .critical .standard squaredConstants =
          @readCoefficients Exact inWords .critical .standard (squaredConstants.replaceSymbols (real 1))) ∧
      (Expr.binary .mul constantsSum .decay).IsMultilinear ∧
        @readCoefficients Exact inWords .critical (withPlaceholder 2) (.binary .mul constantsSum .decay) =
          .critical (real 4) (real 0) (real 1) ∧
        @readCoefficients Exact inWords .critical (withPlaceholder 2)
          ((Expr.binary .mul constantsSum .decay).replaceSymbols (real 2)) =
          .critical (real 4) (real 0) (real 1) := by
  have hf : constantsSum.SymbolsAreFactors := ⟨trivial, trivial⟩
  have hwords := Expr.storesInWords_exact
  refine ⟨hwords, ?_, ?_⟩
  · have hone : (TextDefaults.standard : TextDefaults Exact).placeholder = real 1 := one_eq
    have hsquared : squaredConstants.SymbolsAreFactors := symbolsAreFactors_mul_decay.mpr ⟨hf, trivial⟩
    have hk : squaredConstants.KeepsPowers (real 1) := by
      refine ⟨⟨⟨trivial, trivial⟩, .inr fun c n hc hn => ?_⟩, trivial⟩
      rw [constantsSum_replaceSymbols, constantValue_onePlusOne, Option.some.injEq] at hc
      rw [Expr.constantValue_number, Option.some.injEq] at hn
      rw [← hc, ← hn]
      exact constantsSum_isMultiplied
    have hread := readCoefficients_replaceSymbols hwords one_ne_zero hone hsquared hk (.inl rfl) .critical
    exact ⟨hone, hsquared, hk, hread.1⟩
  · have htwo : (withPlaceholder 2).placeholder = real 2 := rfl
    have hmultilinear : (Expr.binary .mul constantsSum .decay).IsMultilinear := by
      intro name _
      simp only [Expr.degree, constantsSum, Expr.decay]
      split_ifs <;> decide
    have hread := readCoefficients_replaceSymbols hwords two_ne_zero htwo
      (symbolsAreFactors_mul_decay.mpr hf) ⟨⟨trivial, trivial⟩, trivial⟩ (.inr hmultilinear) .critical
    have hfour : @readCoefficients Exact inWords .critical (withPlaceholder 2) (.binary .mul constantsSum .decay) =
        .critical (real 4) (real 0) (real 1) := by
      have hsum := readCoefficients_mul_decay htwo [(1, ["C1"]), (1, ["C2"])] expand_constantsSum (by simp) (by simp)
      norm_num at hsum
      exact hsum
    exact ⟨hmultilinear, hfour, hread.1.symm.trans hfour⟩

/-- The expression `C1 * C1`. -/
def repeatedConstant : Expr Exact := .binary .mul (.symbol "C1") (.symbol "C1")

/-- A constant that is multiplied with itself is one symbol of its term, and so it gets its value once. -/
theorem repeatedConstant_not_replaced :
    (withPlaceholder 2).placeholder = real 2 ∧ (Expr.binary .mul repeatedConstant .decay).SymbolsAreFactors ∧
      (Expr.binary .mul repeatedConstant .decay).KeepsPowers (real 2) ∧
      @readCoefficients Exact inWords .critical (withPlaceholder 2) (.binary .mul repeatedConstant .decay) =
        .critical (real 2) (real 0) (real 1) ∧
      @readCoefficients Exact inWords .critical (withPlaceholder 2)
        ((Expr.binary .mul repeatedConstant .decay).replaceSymbols (real 2)) =
        .critical (real 4) (real 0) (real 1) := by
  have hconstant := expand_of_isFree (show Expr.IsFree "C1" by decide)
  have htwice : repeatedConstant.expand = .ok [⟨real 1, 0, 0, none, ["C1"]⟩] := by
    refine Expr.expand_mul.mpr ⟨_, _, [⟨real 1, 0, 0, none, ["C1"]⟩], hconstant, hconstant, ?_, ?_⟩
    · simp [products, Monomial.mul, Names.union, Names.insert]
      rfl
    · simp [nonzero, bne]
  have hnumber : (Expr.number (real 2)).expand = .ok [constant (real 2)] := by
    rw [Expr.expand_number]
    simp [nonzero, constant, bne]
  have hfour : (Expr.binary .mul (.number (real 2)) (.number (real 2))).expand =
      .ok [⟨real 4, 0, 0, none, []⟩] := by
    refine Expr.expand_mul.mpr ⟨_, _, [⟨real 4, 0, 0, none, []⟩], hnumber, hnumber, ?_, ?_⟩
    · simp [products, Monomial.mul, constant, Names.union]
      exact ⟨by norm_num, rfl⟩
    · simp [nonzero, bne]
  have hreplaced : (Expr.binary .mul repeatedConstant .decay).replaceSymbols (real 2) =
      .binary .mul (.binary .mul (.number (real 2)) (.number (real 2))) .decay := by
    simp [repeatedConstant, Expr.decay, Expr.replaceSymbols, Expr.IsFree, Expr.timeName, Expr.eulerName]
  have htwo : (withPlaceholder 2).placeholder = real 2 := rfl
  refine ⟨htwo, symbolsAreFactors_mul_decay.mpr ⟨trivial, trivial⟩, ⟨⟨trivial, trivial⟩, trivial⟩, ?_, ?_⟩
  · have hread := readCoefficients_mul_decay htwo [(1, ["C1"])] htwice (by simp) (by simp)
    norm_num at hread
    exact hread
  · have hread := readCoefficients_mul_decay htwo [(4, [])] hfour (by simp) (by simp)
    norm_num at hread
    rwa [hreplaced]

end Textual

end Oscillator
