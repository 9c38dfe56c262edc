import Oscillator.Proofs.Parsing.LeadingMinus

/-! # The symbols of an expression

Reading neither drops a symbol nor adds one: what is read has the symbols of the tokens that it took, in
their order. Only Euler's number as a base is not kept, since the power becomes an exponential function.
-/
namespace Oscillator

namespace Token

variable {α : Type}

def name? : Token α → Option String
  | symbol name => some name
  | _ => none

/-- The names of all symbols among tokens, in order. -/
def names (ts : List (Token α)) : List String := ts.filterMap name?

theorem mem_names {name : String} {ts : List (Token α)} : name ∈ names ts ↔ symbol name ∈ ts := by
  simp only [names, List.mem_filterMap]
  constructor
  · rintro ⟨t, ht, hname⟩
    cases t with
    | symbol name' => rwa [← Option.some.inj hname]
    | _ => cases hname
  · exact fun h => ⟨_, h, rfl⟩

end Token

namespace Expr

open Outcome

variable {α : Type} {n : Nat} {e l : Expr α} {ts us rest : List (Token α)}

/-- The names of all symbols in an expression, in order. -/
def names : Expr α → List String
  | symbol name => [name]
  | negate e => e.names
  | binary _ left right => left.names ++ right.names
  | call _ arg => arg.names
  | _ => []

/-- The names without that of Euler's number. -/
def apartFromEuler (names : List String) : List String := names.filter (· ≠ eulerName)

theorem apartFromEuler_append (ns ns' : List String) :
    apartFromEuler (ns ++ ns') = apartFromEuler ns ++ apartFromEuler ns' := List.filter_append ns ns'

theorem mem_apartFromEuler {name : String} (h : name ≠ eulerName) {ns : List String} :
    name ∈ apartFromEuler ns ↔ name ∈ ns := by
  simp [apartFromEuler, h]

theorem names_power (base exponent : Expr α) : apartFromEuler (power base exponent).names =
    apartFromEuler base.names ++ apartFromEuler exponent.names := by
  cases base with
  | symbol name =>
    rw [power]
    split
    case isTrue h =>
      subst h
      rfl
    case isFalse => exact apartFromEuler_append [name] exponent.names
  | _ => exact apartFromEuler_append _ exponent.names

/-- The tokens have the symbols of this expression and then those of the rest. -/
def Keeps (ts : List (Token α)) (e : Expr α) (rest : List (Token α)) : Prop :=
  apartFromEuler (Token.names ts) = apartFromEuler e.names ++ apartFromEuler (Token.names rest)

/-- What is read one after the other has the symbols of both parts. -/
theorem Keeps.append {op : Op} {r : Expr α} (hl : Keeps ts l us) (hr : Keeps us r rest) :
    Keeps ts (.binary op l r) rest := by
  rw [Keeps, names, apartFromEuler_append, List.append_assoc, ← hr, hl]

/-- Reading fewer than `n` tokens in this way keeps the symbols. -/
def Conserves (n : Nat) (read : (ts : List (Token α)) → Outcome α ts.length) : Prop :=
  ∀ {ts e rest}, ts.length < n → (read ts).Gives e rest → Keeps ts e rest

/-! ## Operands -/

theorem keeps_symbol (name : String) (rest : List (Token α)) :
    Keeps (.symbol name :: rest) (.symbol name) rest :=
  apartFromEuler_append [name] (Token.names rest)

theorem group_conserves (hsum : Conserves (α := α) n sum) : Conserves (α := α) (n + 1) group := by
  intro ts e rest hlt hg
  cases ts with
  | nil =>
    rw [group] at hg
    · exact absurd hg not_gives_error
    all_goals simp
  | cons t us =>
    cases t with
    | opening b =>
      have hkeeps : Keeps us e (.closing b :: rest) :=
        hsum (Nat.lt_of_succ_lt_succ hlt) (group_opening_gives.mp hg)
      exact hkeeps
    | number x =>
      rw [group] at hg
      obtain ⟨rfl, rfl⟩ := gives_ok.mp hg
      rfl
    | symbol name =>
      rw [group] at hg
      obtain ⟨rfl, rfl⟩ := gives_ok.mp hg
      exact keeps_symbol name rest
    | _ =>
      rw [group] at hg
      · exact absurd hg not_gives_error
      all_goals simp

theorem primary_argument_gives {f : Func} (h : ∀ b us, ts ≠ .opening b :: us) :
    (primary (.func f :: ts)).Gives e rest ↔
      ∃ r us, (powers ts).Gives r us ∧ e = .call f r ∧ rest = us := by
  rw [primary]
  · exact gives_bind fun _ => gives_ok
  · exact h

theorem primary_conserves (hpowers : Conserves (α := α) n powers)
    (hgroup : Conserves (α := α) (n + 1) group) : Conserves (α := α) (n + 1) primary := by
  intro ts e rest hlt hg
  cases ts with
  | nil =>
    rw [primary] at hg
    · exact absurd hg not_gives_error
    all_goals simp
  | cons t us =>
    have hus : us.length < n := Nat.lt_of_succ_lt_succ hlt
    cases t with
    | number x | command name =>
      rw [primary] at hg
      obtain ⟨rfl, rfl⟩ := gives_ok.mp hg
      rfl
    | symbol name =>
      rw [primary] at hg
      obtain ⟨rfl, rfl⟩ := gives_ok.mp hg
      exact keeps_symbol name rest
    | func f =>
      by_cases hopening : ∃ b vs, us = .opening b :: vs
      · obtain ⟨b, vs, rfl⟩ := hopening
        obtain ⟨r, ws, hr, rfl, rfl⟩ := primary_func_gives.mp hg
        have hkeeps : Keeps (.opening b :: vs) r rest := hgroup (Nat.lt_succ_of_lt hus) hr
        exact hkeeps
      · have hne : ∀ b vs, us ≠ .opening b :: vs := fun b vs h => hopening ⟨b, vs, h⟩
        obtain ⟨r, ws, hr, rfl, rfl⟩ := (primary_argument_gives hne).mp hg
        have hkeeps : Keeps us r rest := hpowers hus hr
        exact hkeeps
    | fraction =>
      obtain ⟨l, vs, hl, r, ws, hr, rfl, rfl⟩ := primary_fraction_gives.mp hg
      have hvs : vs.length < n + 1 := (hl.choose.trans hus).trans (Nat.lt_succ_self n)
      have hleft : Keeps us l vs := hgroup (Nat.lt_succ_of_lt hus) hl
      exact hleft.append (hgroup hvs hr)
    | opening b => exact hgroup hlt (primary_opening_gives.mp hg)
    | _ =>
      rw [primary] at hg
      · exact absurd hg not_gives_error
      all_goals simp

theorem unary_conserves (hprimary : Conserves (α := α) n primary) : Conserves (α := α) n unary := by
  intro ts e rest hlt hg
  induction ts generalizing e with
  | nil =>
    rw [unary] at hg
    · exact hprimary hlt hg
    all_goals simp
  | cons t us ih =>
    have hus : us.length < n := Nat.lt_of_succ_lt hlt
    cases t with
    | minus =>
      obtain ⟨r, vs, hr, rfl, rfl⟩ := unary_minus_gives.mp hg
      have hkeeps : Keeps us r rest := ih hus hr
      exact hkeeps
    | plus =>
      rw [unary] at hg
      exact ih hus ((gives_widen _).mp hg)
    | _ =>
      rw [unary] at hg
      · exact hprimary hlt hg
      all_goals simp

/-! ## Chains of operands -/

section

variable {operand : (ts : List (Token α)) → Outcome α ts.length}
  {tail : Expr α → (ts : List (Token α)) → Outcome α (ts.length + 1)}

/-- After a left operand a chain goes on with an operand of its kind, which it takes up with its symbols. -/
def GoesOn (operand : (ts : List (Token α)) → Outcome α ts.length)
    (tail : Expr α → (ts : List (Token α)) → Outcome α (ts.length + 1)) (l : Expr α)
    (ts : List (Token α)) (e : Expr α) (rest : List (Token α)) : Prop :=
  ∃ us vs r l', us.length ≤ ts.length ∧ Token.names us = Token.names ts ∧ (operand us).Gives r vs ∧
    apartFromEuler l'.names = apartFromEuler l.names ++ apartFromEuler r.names ∧ (tail l' vs).Gives e rest

theorem goesOn_op {op : Op}
    (h : ∃ r vs, (operand ts).Gives r vs ∧ (tail (.binary op l r) vs).Gives e rest) :
    GoesOn operand tail l (.ofOp op :: ts) e rest := by
  obtain ⟨r, vs, hr, htail⟩ := h
  have hnames : Token.names ts = Token.names (.ofOp op :: ts) := by cases op <;> rfl
  exact ⟨ts, vs, r, _, Nat.le_succ _, hnames, hr, apartFromEuler_append _ _, htail⟩

/-- A chain stops or goes on. -/
def IsChain (operand : (ts : List (Token α)) → Outcome α ts.length)
    (tail : Expr α → (ts : List (Token α)) → Outcome α (ts.length + 1)) : Prop :=
  ∀ {l ts e rest}, (tail l ts).Gives e rest → (e = l ∧ rest = ts) ∨ GoesOn operand tail l ts e rest

theorem IsChain.keeps (h : IsChain operand tail) (hoperand : Conserves n operand) (hlt : ts.length < n)
    (hg : (tail l ts).Gives e rest) :
    apartFromEuler l.names ++ apartFromEuler (Token.names ts) =
      apartFromEuler e.names ++ apartFromEuler (Token.names rest) := by
  obtain ⟨k, hk⟩ : ∃ k, ts.length = k := ⟨_, rfl⟩
  induction k using Nat.strong_induction_on generalizing l ts with
  | _ k ih =>
    rcases h hg with ⟨rfl, rfl⟩ | ⟨us, vs, r, l', hle, hus, hr, hl', htail⟩
    · rfl
    · have hvs : vs.length < k := by
        rw [← hk]
        exact lt_of_lt_of_le hr.choose hle
      have hkeeps : Keeps us r vs := hoperand (lt_of_le_of_lt hle hlt) hr
      rw [← ih vs.length hvs (hvs.trans (hk ▸ hlt)) htail rfl, hl', ← hus, hkeeps, List.append_assoc]

theorem IsChain.conserves (h : IsChain operand tail) (hoperand : Conserves n operand)
    {whole : (ts : List (Token α)) → Outcome α ts.length}
    (hwhole : ∀ {ts e rest}, (whole ts).Gives e rest →
      ∃ l us, (operand ts).Gives l us ∧ (tail l us).Gives e rest) : Conserves n whole := by
  intro ts e rest hlt hg
  obtain ⟨l, us, hl, htail⟩ := hwhole hg
  have hkeeps : Keeps ts l us := hoperand hlt hl
  exact hkeeps.trans (h.keeps hoperand (hl.choose.trans hlt) htail)

end

theorem powersTail_isChain : IsChain (α := α) unary powersTail := by
  intro l ts e rest hg
  by_cases hcaret : ∃ us, ts = .caret :: us
  · obtain ⟨us, rfl⟩ := hcaret
    obtain ⟨r, vs, hr, htail⟩ := powersTail_caret_gives.mp hg
    exact .inr ⟨us, vs, r, power l r, Nat.le_succ _, rfl, hr, names_power l r, htail⟩
  · rw [powersTail] at hg
    · exact .inl (gives_ok.mp hg)
    · exact fun us hts => hcaret ⟨us, hts⟩

theorem productTail_isChain : IsChain (α := α) powers productTail := by
  intro l ts e rest hg
  cases ts with
  | nil =>
    rw [productTail] at hg
    exact .inl (gives_ok.mp hg)
  | cons t us =>
    cases t with
    | times => exact .inr (goesOn_op ((productTail_op_gives (.inl rfl)).mp hg))
    | slash => exact .inr (goesOn_op ((productTail_op_gives (.inr rfl)).mp hg))
    | number | symbol | func | command | fraction | opening =>
      obtain ⟨r, vs, hr, htail⟩ := (productTail_factor_gives rfl).mp hg
      exact .inr ⟨_, vs, r, _, le_rfl, rfl, hr, apartFromEuler_append _ _, htail⟩
    | plus | minus | caret | closing =>
      rw [productTail, if_neg (by simp [Token.startsFactor])] at hg
      · exact .inl (gives_ok.mp hg)
      all_goals simp

theorem sumTail_isChain : IsChain (α := α) product sumTail := by
  intro l ts e rest hg
  by_cases hplus : ∃ us, ts = .plus :: us
  · obtain ⟨us, rfl⟩ := hplus
    exact .inr (goesOn_op ((sumTail_op_gives (.inl rfl)).mp hg))
  · by_cases hminus : ∃ us, ts = .minus :: us
    · obtain ⟨us, rfl⟩ := hminus
      exact .inr (goesOn_op ((sumTail_op_gives (.inr rfl)).mp hg))
    · rw [sumTail] at hg
      · exact .inl (gives_ok.mp hg)
      · exact fun us hts => hplus ⟨us, hts⟩
      · exact fun us hts => hminus ⟨us, hts⟩

/-! ## Expressions -/

/-- From sums and powers of fewer tokens to those of one more, level by level. -/
theorem sum_conserves (n : Nat) : Conserves (α := α) n powers ∧ Conserves (α := α) n sum := by
  induction n with
  | zero => exact ⟨fun h => absurd h (Nat.not_lt_zero _), fun h => absurd h (Nat.not_lt_zero _)⟩
  | succ n ih =>
    obtain ⟨hpowers, hsum⟩ := ih
    have hunary : Conserves (α := α) (n + 1) unary :=
      unary_conserves (primary_conserves hpowers (group_conserves hsum))
    have hpowers' : Conserves (α := α) (n + 1) powers :=
      powersTail_isChain.conserves hunary powers_gives.mp
    have hproduct : Conserves (α := α) (n + 1) product :=
      productTail_isChain.conserves hpowers' product_gives.mp
    exact ⟨hpowers', sumTail_isChain.conserves hproduct sum_gives.mp⟩

theorem parse_names [Arithmetic α] {text : String} (h : parse text = .ok e) :
    apartFromEuler (Token.names (Token.ofText (α := α) text)) = apartFromEuler e.names := by
  rw [parse, ofTokens_eq_ok_iff] at h
  have hkeeps : Keeps (Token.ofText text) e [] := (sum_conserves _).2 (Nat.lt_succ_self _) h
  rw [hkeeps]
  exact List.append_nil _

/-- A text that is read names the symbols that its tokens name. -/
theorem mem_names_of_parse [Arithmetic α] {text : String} (h : parse text = .ok e) {name : String}
    (hname : name ≠ eulerName) : name ∈ e.names ↔ .symbol name ∈ Token.ofText (α := α) text := by
  rw [← mem_apartFromEuler hname, ← parse_names h, mem_apartFromEuler hname, Token.mem_names]

end Expr

end Oscillator
