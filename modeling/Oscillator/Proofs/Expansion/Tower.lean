import Oscillator.Proofs.Expansion.Meaning
import Oscillator.Proofs.Parsing.Rules
import Oscillator.Proofs.Parsing.Scanning

/-! # Towers of powers

A sum is raised to the eighth power at most, but powers can be taken of powers. The exponent of time in
`t ^ k₁ ^ k₂ ^ …`, which groups to the left, is the product of all exponents and so beyond every
bound. Kept in a word of 32 bits it is right only up to multiples of `2 ^ 32`.
-/
namespace Oscillator

section

variable {α : Type} [Arithmetic α]

namespace Token

def tower (ks : List ℕ) : List (Token α) := ks.flatMap fun k => [.caret, .number (k : α)]

def towerText (ks : List ℕ) : String := ks.foldr (fun k s => "^" ++ (toString k ++ s)) ""

example : "t" ++ towerText [8, 12] = "t^8^12" := by decide

theorem breaks_towerText (ks : List ℕ) {rest : List Char} (hr : Text.Breaks rest) :
    Text.Breaks ((towerText ks).toList ++ rest) := by
  cases ks with
  | nil => exact hr
  | cons k ks =>
    rw [towerText, List.foldr_cons, String.toList_append]
    exact Text.breaks_cons (by decide +kernel) _

theorem scans_towerText (ks : List ℕ) {rest : List Char} (hr : Text.Breaks rest) :
    Scans (α := α) (towerText ks) (tower ks) rest := by
  induction ks with
  | nil =>
    intro read
    rfl
  | cons k ks ih =>
    have hcaret : Scans (α := α) "^" [.caret] ((toString k ++ towerText ks).toList ++ rest) :=
      scans_mark rfl rfl (Or.inl (by decide))
    exact hcaret.append ((scans_number k (breaks_towerText ks hr)).append ih)

end Token

namespace Expr

/-- An expression raised to one power after the other. -/
def tower (e : Expr α) (ks : List ℕ) : Expr α :=
  ks.foldl (fun e k => .binary .pow e (.number (k : α))) e

theorem powersTail_tower (ks : List ℕ) {e : Expr α} (he : e ≠ .symbol eulerName)
    {rest : List (Token α)} (hrest : ∀ t ∈ rest.head?, t.extendsPower = false) :
    (powersTail e (Token.tower ks ++ rest)).Gives (e.tower ks) rest := by
  induction ks generalizing e with
  | nil => exact powersTail_stop hrest
  | cons k ks ih =>
    have hpower : power e (.number (k : α)) = .binary .pow e (.number k) := by
      cases e with
      | symbol name =>
        refine if_neg fun h => he ?_
        rw [h]
      | _ => rfl
    refine powersTail_caret_gives.mpr ⟨_, _, isOperand_number (k : α) _, ?_⟩
    rw [hpower]
    exact ih nofun

theorem parse_tower (ks : List ℕ) :
    parse (α := α) (timeName ++ Token.towerText ks) = .ok ((symbol timeName).tower ks) := by
  have hscan : Token.Scans (α := α) (timeName ++ Token.towerText ks)
      (.symbol timeName :: Token.tower ks) [] := by
    have htime : timeName.toList = ['t'] := rfl
    have hdigits : ∀ d ∈ ([] : List Char), d.isDigit = true := nofun
    have hend : Text.Breaks [] := nofun
    exact (Token.scans_symbol htime (by decide) hdigits (Token.breaks_towerText ks hend)).append
      (Token.scans_towerText ks hend)
  have hpower : IsPower (α := α) (.symbol timeName :: Token.tower ks) ((symbol timeName).tower ks) :=
    fun rest hrest => powers_gives.mpr
      ⟨_, _, isOperand_symbol timeName _, powersTail_tower ks (by simp [timeName, eulerName]) hrest⟩
  rw [parse, Token.ofText_eq hscan]
  exact hpower.isProduct.isSum.ofTokens

/-- No linear reading of the expression is a constant. -/
def Varies (e : Expr α) : Prop := ∀ p, e.linearIn timeName = some p → p.isConstant = false

theorem Varies.constantValue {e : Expr α} (h : e.Varies) : e.constantValue = none := by
  refine Option.eq_none_iff_forall_ne_some.mpr fun c hc => ?_
  obtain ⟨p, hp, hconstant, -⟩ := constantValue_eq_some.mp hc
  rw [h p hp] at hconstant
  cases hconstant

/-- A power has a linear reading only if its base is constant. -/
theorem Varies.pow {base exponent : Expr α} (h : base.Varies) :
    (binary .pow base exponent).Varies := by
  intro q hq
  obtain ⟨p, r, hp, -, hcombine⟩ := linearIn_binary.mp hq
  obtain ⟨hconstant, -⟩ := Option.ite_none_right_eq_some.mp hcombine
  rw [h p hp, Bool.false_and] at hconstant
  cases hconstant

end Expr

end

namespace Exact

/-- The exponents of time are kept in words of 32 bits, as those of double precision are. -/
@[reducible] noncomputable def inWords : Arithmetic Exact := storing (·.bmod 0x100000000)

theorem power_natCast (x : ℝ) (k : ℕ) : power x k = real (x ^ k) := by
  rw [← Int.cast_natCast, power_intCast_eq_real]
  exact ⟨fun _ => Int.natCast_nonneg k, zpow_natCast x k⟩

end Exact

open Exact

namespace Monomial

/-- A power of time. -/
def timeTo (n : ℤ) : Monomial Exact := ⟨real 1, real 0, n, none, []⟩

theorem constant_one_eq : (constant 1 : Monomial Exact) = timeTo 0 := by
  rw [constant, timeTo, one_eq, zero_eq]

theorem time_eq : (time : Monomial Exact) = timeTo 1 := by
  rw [time, timeTo, one_eq, zero_eq]

theorem powSum_timeTo (n : ℤ) (k : ℕ) : letI := inWords
    powSum [timeTo (n.bmod 0x100000000)] k = .ok [timeTo ((n * k).bmod 0x100000000)] := by
  let _ := inWords
  induction k with
  | zero =>
    rw [Nat.cast_zero, mul_zero, Int.zero_bmod]
    exact congrArg (fun m => Except.ok [m]) constant_one_eq
  | succ k ih =>
    refine powSum_succ_eq_ok.mpr ⟨_, ih, ?_⟩
    have hmul : (timeTo ((n * k).bmod 0x100000000)).mul (timeTo (n.bmod 0x100000000)) =
        .ok (timeTo ((n * (k + 1 : ℕ)).bmod 0x100000000)) := by
      refine mul_eq_ok.mpr ⟨Or.inl rfl, ?_⟩
      change _ = (⟨real (1 * 1), real (0 + 0), _, none, []⟩ : Monomial Exact)
      rw [one_mul, zero_add, Nat.cast_succ, mul_add, mul_one, Int.add_bmod]
      rfl
    change [(timeTo _).mul (timeTo _)] = _
    rw [hmul]
    rfl

end Monomial

namespace Expr

open Monomial

theorem nonzero_timeTo (n : ℤ) : letI := inWords; nonzero [timeTo n] = [timeTo n] := by
  let _ := inWords
  rw [nonzero_eq_self]
  intro m hm
  rw [List.mem_singleton.mp hm]
  exact bne_zero_iff.mpr (by simp [timeTo])

/-- A small count is an exponent that sums are raised to. -/
theorem count_supported {k : ℕ} (hk : k ≤ maxPower) : ¬(k : Exact) < 0 ∧
    Arithmetic.isWhole (k : Exact) = true ∧ ¬(maxPower : Exact) < (k : Exact) ∧
      Arithmetic.toCount (k : Exact) = k := by
  refine ⟨?_, ?_, ?_, ?_⟩
  · rw [natCast_eq, zero_eq, real_lt, not_lt]
    exact Nat.cast_nonneg k
  · rw [natCast_eq, Arithmetic.isWhole, floor_real, real_sub, Int.floor_natCast, Int.cast_natCast,
      sub_self, zero_eq, real_beq, decide_eq_true_eq]
  · rw [natCast_eq, natCast_eq, real_lt, not_lt]
    exact_mod_cast hk
  · rw [natCast_eq]
    change min ⌊(k : ℝ)⌋₊ _ = k
    rw [Nat.floor_natCast]
    exact min_eq_left (hk.trans (by decide))

theorem expand_pow_timeTo {e : Expr Exact} {n : ℤ} {k : ℕ} (hk : k ≤ maxPower) : letI := inWords
    e.Varies → e.expand = .ok [timeTo (n.bmod 0x100000000)] →
      (binary .pow e (.number (k : Exact))).expand =
        .ok [timeTo ((n * k).bmod 0x100000000)] := by
  obtain ⟨hneg, hwhole, hlarge, hcount⟩ := count_supported hk
  let _ := inWords
  intro he h
  have hexponent : (number (k : Exact)).constantValue = some (k : Exact) :=
    constantValue_eq_some.mpr ⟨.constant (k : Exact), rfl, decide_eq_true rfl, rfl⟩
  have hsum : powSum [timeTo (n.bmod 0x100000000)] (Arithmetic.toCount (k : Exact)) =
      .ok [timeTo ((n * k).bmod 0x100000000)] :=
    (congrArg (powSum _) hcount).trans (powSum_timeTo n k)
  exact expand_pow.mpr ⟨(k : Exact), hexponent,
    Or.inr ⟨he.constantValue, hneg, hwhole, hlarge, _, _, h, hsum, nonzero_timeTo _⟩⟩

theorem expand_tower_of_base {ks : List ℕ} (hks : ∀ k ∈ ks, k ≤ maxPower) {e : Expr Exact} {n : ℤ} :
    letI := inWords
    e.Varies → e.expand = .ok [timeTo (n.bmod 0x100000000)] →
      (e.tower ks).expand = .ok [timeTo ((n * (ks.prod : ℕ)).bmod 0x100000000)] := by
  let _ := inWords
  intro he h
  induction ks generalizing e n with
  | nil =>
    rw [List.prod_nil, Nat.cast_one, mul_one]
    exact h
  | cons k ks ih =>
    obtain ⟨hk, hks⟩ := List.forall_mem_cons.mp hks
    rw [List.prod_cons, Nat.cast_mul, ← mul_assoc]
    exact ih hks he.pow (expand_pow_timeTo hk he h)

/-- In words of 32 bits the exponent of a tower is the remainder of the product. -/
theorem expand_tower {ks : List ℕ} (hks : ∀ k ∈ ks, k ≤ maxPower) : letI := inWords
    ((symbol timeName).tower ks : Expr Exact).expand =
      .ok [timeTo ((ks.prod : ℤ).bmod 0x100000000)] := by
  let _ := inWords
  have htime : (symbol timeName : Expr Exact).Varies := by
    rintro p ⟨⟩
    simp [Linear.isConstant]
  have hexpand : (symbol timeName : Expr Exact).expand = .ok [timeTo (Int.bmod 1 0x100000000)] := by
    rw [expand_symbol, if_pos rfl]
    exact congrArg Except.ok ((congrArg (fun m => nonzero [m]) time_eq).trans (nonzero_timeTo 1))
  have htower := expand_tower_of_base hks htime hexpand
  rw [one_mul] at htower
  exact htower

section

variable {σ : String → Exact} {e : Expr Exact} {t x : ℝ}

theorem value_pow_count (h : e.value σ (real t) = real x) (k : ℕ) :
    (binary .pow e (.number (k : Exact))).value σ (real t) = real (x ^ k) := by
  change Arithmetic.pow (e.value σ (real t)) (k : Exact) = _
  rw [h, natCast_eq, pow_real, power_natCast]

theorem value_tower (h : e.value σ (real t) = real x) (ks : List ℕ) :
    (e.tower ks).value σ (real t) = real (x ^ ks.prod) := by
  induction ks generalizing e x with
  | nil => rwa [List.prod_nil, pow_one]
  | cons k ks ih =>
    rw [List.prod_cons, pow_mul]
    exact ih (value_pow_count h k)

theorem isDefinedAt_tower (hd : e.IsDefinedAt σ (real t)) (h : e.value σ (real t) = real x)
    (ks : List ℕ) : (e.tower ks).IsDefinedAt σ (real t) := by
  induction ks generalizing e x with
  | nil => exact hd
  | cons k ks ih =>
    have hcount : (number (k : Exact)).value σ (real t) = real k := natCast_eq k
    refine ih ⟨hd, ?_, ?_⟩ (value_pow_count h k)
    · rw [IsDefinedAt, natCast_eq]
      rintro ⟨⟩
    · rw [h, hcount, Op.IsDefinedOn, power_natCast]
      rintro ⟨⟩

end

end Expr

end Oscillator
