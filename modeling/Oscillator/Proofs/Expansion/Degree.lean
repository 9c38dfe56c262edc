import Oscillator.Proofs.Double.Grid
import Oscillator.Proofs.Expansion.Tower
import Oscillator.Proofs.Expansion.Words

/-! # Degrees

Like a polynomial, an expression has a degree in each of its names: degrees of factors add up, and a power
multiplies them. No exponent of time that comes up in an expansion is beyond the degree in time. So an
arithmetic that stores the exponents up to the degree as they are expands the expression as if it stored
all of them so.
-/
namespace Oscillator

variable {α : Type} [Arithmetic α]

namespace Expr

/-- The degree in a name. A power that is multiplied out has at least the degree of its base; other powers
and functions are taken of constants, or of linear readings that make no power of time. -/
def degree (name : String) : Expr α → ℕ
  | symbol s => if s = name then 1 else 0
  | negate e => e.degree name
  | binary .add left right => max (left.degree name) (right.degree name)
  | binary .sub left right => max (left.degree name) (right.degree name)
  | binary .mul left right => left.degree name + right.degree name
  | binary .div left right => left.degree name + right.degree name
  | binary .pow base exponent =>
    match exponent.constantValue, base.constantValue with
    | some n, none =>
      if n < 0 || !Arithmetic.isWhole n || (maxPower : α) < n then 0
      else base.degree name * max (Arithmetic.toCount n) 1
    | _, _ => 0
  | _ => 0

theorem degree_pow {base exponent : Expr α} {n : α} (hn : exponent.constantValue = some n)
    (hb : base.constantValue = none) (hneg : ¬n < 0) (hwhole : Arithmetic.isWhole n = true)
    (hlarge : ¬(maxPower : α) < n) (name : String) :
    (binary .pow base exponent).degree name =
      base.degree name * max (Arithmetic.toCount n) 1 := by
  rw [degree, hn, hb]
  exact if_neg (by simp [hneg, hwhole, hlarge])

theorem degree_pow_supported {base exponent : Expr α} {n : α} (hn : exponent.constantValue = some n)
    (hb : base.constantValue = none)
    (hguard : ¬(n < 0 || !Arithmetic.isWhole n || (maxPower : α) < n) = true) (name : String) :
    (binary .pow base exponent).degree name = base.degree name * max (Arithmetic.toCount n) 1 := by
  simp only [Bool.or_eq_true, decide_eq_true_eq, Bool.not_eq_true', not_or, Bool.not_eq_false] at hguard
  exact degree_pow hn hb hguard.1.1 hguard.1.2 hguard.2 name

end Expr

/-- Exponents up to a bound are stored as they are. -/
def Arithmetic.Stores (α : Type) [Arithmetic α] (bound : ℕ) : Prop :=
  ∀ n : ℤ, |n| ≤ bound → Arithmetic.storePower α n = n

theorem Arithmetic.Stores.mono {m n : ℕ} (h : Arithmetic.Stores α n) (hmn : m ≤ n) :
    Arithmetic.Stores α m :=
  fun k hk => h k (hk.trans (by exact_mod_cast hmn))

open Arithmetic (Stores StoresInWords)

namespace Monomial

variable {a b m r : Monomial α} {base left right ts : List (Monomial α)} {i j d n : ℕ}

omit [Arithmetic α] in
theorem abs_add_timePower_le (ha : |a.timePower| ≤ i) (hb : |b.timePower| ≤ j) :
    |a.timePower + b.timePower| ≤ (i + j : ℕ) :=
  (abs_add_le _ _).trans (by exact_mod_cast add_le_add ha hb)

theorem timePower_mul (hstore : Stores α (i + j)) (ha : |a.timePower| ≤ i) (hb : |b.timePower| ≤ j)
    (h : a.mul b = .ok m) : |m.timePower| ≤ (i + j : ℕ) := by
  obtain ⟨-, rfl⟩ := mul_eq_ok.mp h
  change |Arithmetic.storePower α (a.timePower + b.timePower)| ≤ _
  rw [hstore _ (abs_add_timePower_le ha hb)]
  exact abs_add_timePower_le ha hb

theorem timePower_reciprocal (hstore : Stores α i) (hm : |m.timePower| ≤ i)
    (h : m.reciprocal = .ok r) : |r.timePower| ≤ i := by
  obtain ⟨-, -, -, rfl⟩ := reciprocal_eq_ok.mp h
  have hneg : |-m.timePower| ≤ i := (abs_neg _).trans_le hm
  change |Arithmetic.storePower α (-m.timePower)| ≤ _
  rwa [hstore _ hneg]

theorem PowerOf.timePower (hstore : Stores α (d * n)) (h : PowerOf (|·.timePower| ≤ d) n m) :
    |m.timePower| ≤ (d * n : ℕ) := by
  induction h with
  | one => simp [constant]
  | @mul n a b m ha hb hm ih =>
    exact timePower_mul hstore (ih (hstore.mono (Nat.mul_le_mul_left d n.le_succ))) hb hm

/-- Also a power without any factors is taken of a base that was expanded. -/
theorem PowerOf.timePower_max (hstore : Stores α (d * max n 1))
    (h : PowerOf (fun m => Stores α d → |m.timePower| ≤ d) n m) :
    |m.timePower| ≤ (d * max n 1 : ℕ) := by
  have hd := hstore.mono (Nat.le_mul_of_pos_right d (lt_max_of_lt_right Nat.one_pos))
  have hle := Nat.mul_le_mul_left d (le_max_left n 1)
  have hpower := (h.imp fun b hb => hb hd).timePower (hstore.mono hle)
  exact hpower.trans (by exact_mod_cast hle)

end Monomial

namespace Expr

open Monomial

theorem timePower_termInvariant : TermInvariant (α := α) fun e m =>
    Stores α (e.degree timeName) → |m.timePower| ≤ e.degree timeName where
  number x _ := by simp [constant]
  time _ := by simp [time, degree]
  euler _ := by simp [constant]
  symbol ht he _ := by simp [Monomial.symbol]
  negate h hstore := h hstore
  addLeft h hstore := (h (hstore.mono (le_max_left _ _))).trans (by exact_mod_cast le_max_left _ _)
  addRight h hstore := (h (hstore.mono (le_max_right _ _))).trans (by exact_mod_cast le_max_right _ _)
  subLeft h hstore := (h (hstore.mono (le_max_left _ _))).trans (by exact_mod_cast le_max_left _ _)
  subRight h hstore := (h (hstore.mono (le_max_right _ _))).trans (by exact_mod_cast le_max_right _ _)
  mul ha hb hm hstore := timePower_mul hstore (ha (hstore.mono (Nat.le_add_right _ _)))
    (hb (hstore.mono (Nat.le_add_left _ _))) hm
  div ha hd hr hm hstore :=
    have hd := timePower_reciprocal (hstore.mono (Nat.le_add_left _ _))
      (hd (hstore.mono (Nat.le_add_left _ _))) hr
    timePower_mul hstore (ha (hstore.mono (Nat.le_add_right _ _))) hd hm
  powConstant base exponent c _ := by simp [constant]
  pow hn hb hneg hwhole hlarge hm hstore := by
    rw [degree_pow hn hb hneg hwhole hlarge] at *
    exact hm.timePower_max hstore
  call _ h hm _ := by
    rw [(plain_of_expandCall h hm).1]
    simp

variable {e left right : Expr α} {ts : List (Monomial α)}

theorem timePower_of_expand (h : e.expand = .ok ts) (hstore : Stores α (e.degree timeName)) :
    ∀ m ∈ ts, |m.timePower| ≤ e.degree timeName :=
  fun m hm => timePower_termInvariant.expand h m hm hstore

theorem timePower_of_expandLenient (hstore : Stores α (e.degree timeName)) :
    ∀ m ∈ e.expandLenient.terms, |m.timePower| ≤ e.degree timeName :=
  fun m hm => timePower_termInvariant.expandLenient e m hm hstore

theorem degree_unbounded (name : String) (e : Expr α) :
    @degree α (.unbounded α) name e = e.degree name := by
  induction e with
  | number x => rfl
  | symbol s => rfl
  | unknown command => rfl
  | negate e ih => exact ih
  | binary op left right ihl ihr =>
    cases op with
    | add => exact congrArg₂ max ihl ihr
    | sub => exact congrArg₂ max ihl ihr
    | mul => exact congrArg₂ (· + ·) ihl ihr
    | div => exact congrArg₂ (· + ·) ihl ihr
    | pow =>
      unfold degree
      rw [constantValue_unbounded, constantValue_unbounded, ihl]
      rfl
  | call f arg => rfl

/-- Terms whose exponents are stored as they are. -/
theorem map_stored_eq_self (hstore : Stores α (e.degree timeName))
    (h : ∀ m ∈ ts, |m.timePower| ≤ @degree α (.unbounded α) timeName e) : ts.map stored = ts := by
  refine (List.map_congr_left fun m hm => ?_).trans (List.map_id ts)
  have hm := h m hm
  rw [degree_unbounded] at hm
  rw [stored, hstore _ hm]
  rfl

theorem stores_unbounded (bound : ℕ) : @Stores α (.unbounded α) bound := fun _ _ => rfl

theorem expand_unbounded (hwords : StoresInWords α) (hstore : Stores α (e.degree timeName)) :
    e.expand = @expand α (.unbounded α) e := by
  rw [expand_stored hwords]
  cases h : @expand α (.unbounded α) e with
  | error reason => rfl
  | ok ts =>
    have hts := @timePower_of_expand α (.unbounded α) e ts h (stores_unbounded _)
    exact congrArg Except.ok (map_stored_eq_self hstore hts)

theorem expandLenient_unbounded (hwords : StoresInWords α) (hstore : Stores α (e.degree timeName)) :
    e.expandLenient = @expandLenient α (.unbounded α) e := by
  have hterms := @timePower_of_expandLenient α (.unbounded α) e (stores_unbounded _)
  rw [expandLenient_stored hwords, map_stored_eq_self hstore hterms]

/-! In words of 32 bits, as with double precision. -/

theorem stores_double {f : Elementary} {n : ℕ} (h : n < 2 ^ 31) : Stores (Double f) n := by
  intro k hk
  obtain ⟨hlow, hhigh⟩ := abs_le.mp hk
  exact Int.bmod_eq_of_le (by omega) (by omega)

theorem storesInWords_double (f : Elementary) : StoresInWords (Double f) where
  zero := rfl
  one := rfl
  add m n := (Int.add_bmod m n _).symm
  neg _ := Int.bmod_neg_bmod

theorem storesInWords_exact : @StoresInWords Exact Exact.inWords :=
  @StoresInWords.mk Exact Exact.inWords rfl rfl (fun m n => (Int.add_bmod m n _).symm)
    fun _ => Int.bmod_neg_bmod

/-- As long as the degree in time fits into a word, exponents kept in words are the true exponents: strict
and lenient expansion are what they are with unbounded exponents, and no exponent is beyond the
degree. -/
theorem expand_of_degree_lt {f : Elementary} (e : Expr (Double f))
    (h : e.degree timeName < 2 ^ 31) :
    e.expand = @expand (Double f) (.unbounded (Double f)) e ∧
      e.expandLenient = @expandLenient (Double f) (.unbounded (Double f)) e ∧
      (∀ ts, e.expand = .ok ts → ∀ m ∈ ts, |m.timePower| ≤ e.degree timeName) ∧
      ∀ m ∈ e.expandLenient.terms, |m.timePower| ≤ e.degree timeName := by
  have hstore := stores_double (f := f) h
  have hwords := storesInWords_double f
  exact ⟨expand_unbounded hwords hstore, expandLenient_unbounded hwords hstore,
    fun ts hts => timePower_of_expand hts hstore, timePower_of_expandLenient hstore⟩

def timeToSixtyFour : Expr (Double .native) := (symbol timeName).tower [8, 8]

theorem expand_of_degree_lt_sixtyFour :
    timeToSixtyFour.degree timeName < 2 ^ 31 ∧
      timeToSixtyFour.expand = @expand _ (.unbounded _) timeToSixtyFour ∧
      ∀ m ∈ timeToSixtyFour.expandLenient.terms, |m.timePower| ≤ 64 := by
  have hdegree : timeToSixtyFour.degree timeName = 64 := by decide +kernel
  have hlt : timeToSixtyFour.degree timeName < 2 ^ 31 := by decide +kernel
  obtain ⟨hexpand, -, -, hlenient⟩ := expand_of_degree_lt timeToSixtyFour hlt
  rw [hdegree] at hlenient
  exact ⟨hlt, hexpand, hlenient⟩

/-- The exponents of time in an expansion. -/
def timePowers (expansion : Except (Rejection α) (List (Monomial α))) : Option (List ℤ) :=
  expansion.toOption.map fun ts => ts.map (·.timePower)

/-- Exponents whose product is `2 ^ 31`. -/
def tooMany : List ℕ := [8, 8, 8, 8, 8, 8, 8, 8, 8, 8, 2]

/-- A degree of `2 ^ 31` is one too much: the power of time is read as its inverse. -/
theorem expand_tooMany_wraps : ∃ e : Expr (Double .native),
    parse "t^8^8^8^8^8^8^8^8^8^8^2" = .ok e ∧ e.degree timeName = 2147483648 ∧
      timePowers e.expand = some [-2147483648] ∧
      timePowers (@expand (Double .native) (.unbounded (Double .native)) e) = some [2147483648] := by
  have htext : timeName ++ Token.towerText tooMany = "t^8^8^8^8^8^8^8^8^8^8^2" := by decide
  refine ⟨(symbol timeName).tower tooMany, ?_, ?_, ?_, ?_⟩
  · rw [← htext]
    exact parse_tower tooMany
  · decide +kernel
  · decide +kernel
  · decide +kernel

end Expr

end Oscillator
