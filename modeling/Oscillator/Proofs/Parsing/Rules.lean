import Oscillator.Expr.Parser

/-! # The grammar of expressions

What each step of the reader gives, without the proofs that it took tokens; and from these steps the
rules by which tokens are read as an operand, a power, a product or a sum whatever follows them, up
to the tokens that would extend it.
-/
namespace Oscillator

namespace Token

variable {α : Type} {t : Token α}

/-- The token of an operator. -/
def ofOp : Op → Token α
  | .add => plus
  | .sub => minus
  | .mul => times
  | .div => slash
  | .pow => caret

/-- Tokens between brackets. -/
def bracketed (b : Bracket) (ts : List (Token α)) : List (Token α) :=
  .opening b :: (ts ++ [.closing b])

/-! A token that extends what stands before it; each level of the grammar has those of the level
below. -/

def extendsPower : Token α → Bool
  | caret => true
  | _ => false

def extendsProduct : Token α → Bool
  | times | slash => true
  | t => t.extendsPower || t.startsFactor

def extendsSum : Token α → Bool
  | plus | minus => true
  | t => t.extendsProduct

theorem extendsPower_of_extendsProduct (h : t.extendsProduct = false) : t.extendsPower = false := by
  cases t <;> first | rfl | cases h

theorem extendsPower_of_startsFactor (h : t.startsFactor = true) : t.extendsPower = false := by
  cases t <;> first | rfl | cases h

theorem startsFactor_of_extendsProduct (h : t.extendsProduct = false) : t.startsFactor = false := by
  cases t <;> first | rfl | cases h

theorem extendsProduct_of_extendsSum (h : t.extendsSum = false) : t.extendsProduct = false := by
  cases t <;> first | rfl | cases h

end Token

namespace Expr

variable {α : Type} {m n : Nat}

/-- The outcome is this expression, with these tokens after it. -/
def Outcome.Gives (o : Outcome α n) (e : Expr α) (rest : List (Token α)) : Prop :=
  ∃ h, o = .ok ⟨e, rest, h⟩

namespace Outcome

variable {e : Expr α} {rest : List (Token α)} {o : Outcome α m}

theorem gives_ok {r : Reading α n} : Gives (.ok r) e rest ↔ e = r.expr ∧ rest = r.rest := by
  obtain ⟨e', rest', h'⟩ := r
  constructor
  · rintro ⟨h, heq⟩
    cases heq
    exact ⟨rfl, rfl⟩
  · rintro ⟨rfl, rfl⟩
    exact ⟨h', rfl⟩

theorem not_gives_error {err : ParseError} : ¬Gives (n := n) (.error err) e rest :=
  fun ⟨_, heq⟩ => nomatch heq

/-- What a step gives that goes on with the reading of another. -/
theorem gives_bind {next : Reading α m → Outcome α n} {After : Expr α → List (Token α) → Prop}
    (h : ∀ r, Gives (next r) e rest ↔ After r.expr r.rest) :
    Gives (o >>= next) e rest ↔ ∃ l us, Gives o l us ∧ After l us := by
  cases o with
  | error err =>
    exact ⟨fun hg => absurd hg not_gives_error, fun ⟨_, _, hg, _⟩ => absurd hg not_gives_error⟩
  | ok r =>
    refine (h r).trans ⟨fun hr => ⟨r.expr, r.rest, ⟨r.rest_lt, rfl⟩, hr⟩, ?_⟩
    rintro ⟨l, us, hl, hr⟩
    obtain ⟨rfl, rfl⟩ := gives_ok.mp hl
    exact hr

theorem gives_widen (h : m ≤ n) :
    Gives (do return (← o).widen h) e rest ↔ Gives o e rest := by
  cases o with
  | error err => exact iff_of_false not_gives_error not_gives_error
  | ok r => exact (gives_ok (r := r.widen h)).trans (gives_ok (r := r)).symm

/-- A group ends with its own kind of bracket and with no other. -/
theorem gives_closed {r : Reading α n} {b : Bracket} :
    Gives (r.closed b) e rest ↔ e = r.expr ∧ r.rest = .closing b :: rest := by
  unfold Reading.closed
  split
  case h_1 b' us h =>
    split
    case isTrue hb =>
      subst hb
      refine gives_ok.trans (and_congr_right fun _ => ?_)
      exact ⟨fun hr => hr ▸ h, fun hr => (List.cons.inj (hr.symm.trans h)).2⟩
    case isFalse hb => exact iff_of_false not_gives_error (by grind)
  case h_2 h => exact iff_of_false not_gives_error fun hr => h _ _ hr.2

end Outcome

open Outcome

section

variable {e e' : Expr α} {ts rest : List (Token α)}

theorem sum_gives : (sum ts).Gives e rest ↔
    ∃ l us, (product ts).Gives l us ∧ (sumTail l us).Gives e rest := by
  rw [sum]
  exact gives_bind fun _ => gives_widen _

theorem sumTail_op_gives {op : Op} (hop : op = .add ∨ op = .sub) :
    (sumTail e' (.ofOp op :: ts)).Gives e rest ↔
      ∃ r us, (product ts).Gives r us ∧ (sumTail (.binary op e' r) us).Gives e rest := by
  rcases hop with rfl | rfl <;> rw [Token.ofOp, sumTail] <;>
    exact gives_bind fun _ => gives_widen _

theorem product_gives : (product ts).Gives e rest ↔
    ∃ l us, (powers ts).Gives l us ∧ (productTail l us).Gives e rest := by
  rw [product]
  exact gives_bind fun _ => gives_widen _

theorem productTail_op_gives {op : Op} (hop : op = .mul ∨ op = .div) :
    (productTail e' (.ofOp op :: ts)).Gives e rest ↔
      ∃ r us, (powers ts).Gives r us ∧ (productTail (.binary op e' r) us).Gives e rest := by
  rcases hop with rfl | rfl <;> rw [Token.ofOp, productTail] <;>
    exact gives_bind fun _ => gives_widen _

theorem productTail_factor_gives {t : Token α} (ht : t.startsFactor) :
    (productTail e' (t :: ts)).Gives e rest ↔
      ∃ r us, (powers (t :: ts)).Gives r us ∧ (productTail (.binary .mul e' r) us).Gives e rest := by
  rw [productTail, if_pos ht]
  -- The rule for factors comes after those for the two signs, which start no factor.
  · exact gives_bind fun _ => gives_widen _
  · rintro rfl
    cases ht
  · rintro rfl
    cases ht

theorem powers_gives : (powers ts).Gives e rest ↔
    ∃ l us, (unary ts).Gives l us ∧ (powersTail l us).Gives e rest := by
  rw [powers]
  exact gives_bind fun _ => gives_widen _

theorem powersTail_caret_gives : (powersTail e' (.caret :: ts)).Gives e rest ↔
    ∃ r us, (unary ts).Gives r us ∧ (powersTail (power e' r) us).Gives e rest := by
  rw [powersTail]
  exact gives_bind fun _ => gives_widen _

theorem unary_minus_gives : (unary (.minus :: ts)).Gives e rest ↔
    ∃ r us, (unary ts).Gives r us ∧ e = .negate r ∧ rest = us := by
  rw [unary]
  exact gives_bind fun _ => gives_ok

theorem primary_func_gives {f : Func} {b : Bracket} :
    (primary (.func f :: .opening b :: ts)).Gives e rest ↔
      ∃ r us, (group (.opening b :: ts)).Gives r us ∧ e = .call f r ∧ rest = us := by
  rw [primary]
  exact gives_bind fun _ => gives_ok

theorem primary_fraction_gives : (primary (.fraction :: ts)).Gives e rest ↔
    ∃ l us, (group ts).Gives l us ∧
      ∃ r vs, (group us).Gives r vs ∧ e = .binary .div l r ∧ rest = vs := by
  rw [primary]
  exact gives_bind fun _ => gives_bind fun _ => gives_ok

theorem primary_opening_gives {b : Bracket} :
    (primary (.opening b :: ts)).Gives e rest ↔ (group (.opening b :: ts)).Gives e rest := by
  rw [primary]

theorem group_opening_gives {b : Bracket} : (group (.opening b :: ts)).Gives e rest ↔
    (sum ts).Gives e (.closing b :: rest) := by
  rw [group]
  refine Iff.trans (b := ∃ l us, (sum ts).Gives l us ∧ e = l ∧ us = .closing b :: rest)
    (gives_bind fun _ => (gives_widen _).trans gives_closed) ?_
  constructor
  · rintro ⟨l, us, hl, rfl, rfl⟩
    exact hl
  · exact fun h => ⟨e, _, h, rfl, rfl⟩

/-- No operand begins with a sign, so signs need not be excluded. -/
theorem unary_of_primary (h : (primary ts).Gives e rest) : (unary ts).Gives e rest := by
  rw [unary.eq_def]
  split
  case h_1 | h_2 =>
    rw [primary] at h
    · exact absurd h not_gives_error
    all_goals simp
  case h_3 => exact h

theorem powersTail_stop (h : ∀ t ∈ ts.head?, t.extendsPower = false) :
    (powersTail e ts).Gives e ts := by
  rw [powersTail]
  · exact gives_ok.mpr ⟨rfl, rfl⟩
  · rintro us rfl
    cases h .caret rfl

theorem productTail_stop (h : ∀ t ∈ ts.head?, t.extendsProduct = false) :
    (productTail e ts).Gives e ts := by
  cases ts with
  | nil =>
    rw [productTail]
    exact gives_ok.mpr ⟨rfl, rfl⟩
  | cons t ts =>
    have ht : t.startsFactor = false := Token.startsFactor_of_extendsProduct (h t rfl)
    rw [productTail, if_neg (by simp [ht])]
    · exact gives_ok.mpr ⟨rfl, rfl⟩
    · rintro rfl
      cases h .times rfl
    · rintro rfl
      cases h .slash rfl

theorem sumTail_stop (h : ∀ t ∈ ts.head?, t.extendsSum = false) : (sumTail e ts).Gives e ts := by
  rw [sumTail]
  · exact gives_ok.mpr ⟨rfl, rfl⟩
  · rintro us rfl
    cases h .plus rfl
  · rintro us rfl
    cases h .minus rfl

end

/-! ## Rules -/

/-- Read as this expression whatever follows. -/
def IsOperand (ts : List (Token α)) (e : Expr α) : Prop :=
  ∀ rest, (unary (ts ++ rest)).Gives e rest

/-- Read as this expression before all tokens that do not extend it. -/
def IsPower (ts : List (Token α)) (e : Expr α) : Prop :=
  ∀ rest : List (Token α), (∀ t ∈ rest.head?, t.extendsPower = false) →
    (powers (ts ++ rest)).Gives e rest

def IsProduct (ts : List (Token α)) (e : Expr α) : Prop :=
  ∀ rest : List (Token α), (∀ t ∈ rest.head?, t.extendsProduct = false) →
    (product (ts ++ rest)).Gives e rest

def IsSum (ts : List (Token α)) (e : Expr α) : Prop :=
  ∀ rest : List (Token α), (∀ t ∈ rest.head?, t.extendsSum = false) →
    (sum (ts ++ rest)).Gives e rest

variable {ts us : List (Token α)} {l r e : Expr α}

theorem isOperand_number (x : α) : IsOperand [.number x] (.number x) := fun rest =>
  unary_of_primary (by rw [List.singleton_append, primary]; exact gives_ok.mpr ⟨rfl, rfl⟩)

theorem isOperand_symbol (name : String) :
    IsOperand [.symbol (α := α) name] (.symbol name) := fun rest =>
  unary_of_primary (by rw [List.singleton_append, primary]; exact gives_ok.mpr ⟨rfl, rfl⟩)

theorem isOperand_unknown (command : String) :
    IsOperand [.command (α := α) command] (.unknown command) := fun rest =>
  unary_of_primary (by rw [List.singleton_append, primary]; exact gives_ok.mpr ⟨rfl, rfl⟩)

theorem IsOperand.negate (h : IsOperand ts e) : IsOperand (.minus :: ts) (.negate e) := fun rest =>
  unary_minus_gives.mpr ⟨e, rest, h rest, rfl, rfl⟩

theorem IsOperand.power (hl : IsOperand ts l) (hr : IsOperand us r) :
    IsPower (ts ++ .caret :: us) (Expr.power l r) := by
  intro rest hrest
  rw [List.append_assoc]
  exact powers_gives.mpr ⟨l, _, hl _,
    powersTail_caret_gives.mpr ⟨r, rest, hr rest, powersTail_stop hrest⟩⟩

theorem IsOperand.isPower (h : IsOperand ts e) : IsPower ts e := fun rest hrest =>
  powers_gives.mpr ⟨e, rest, h rest, powersTail_stop hrest⟩

theorem IsPower.isProduct (h : IsPower ts e) : IsProduct ts e := fun rest hrest =>
  product_gives.mpr ⟨e, rest, h rest fun t ht => Token.extendsPower_of_extendsProduct (hrest t ht),
    productTail_stop hrest⟩

theorem IsPower.binary {op : Op} (hop : op = .mul ∨ op = .div) (hl : IsPower ts l)
    (hr : IsPower us r) : IsProduct (ts ++ .ofOp op :: us) (.binary op l r) := by
  intro rest hrest
  have hr' := hr rest fun t ht => Token.extendsPower_of_extendsProduct (hrest t ht)
  have hop' : (Token.ofOp (α := α) op).extendsPower = false := by
    rcases hop with rfl | rfl <;> rfl
  rw [List.append_assoc]
  exact product_gives.mpr ⟨l, _, hl _ (by rintro t ⟨⟩; exact hop'),
    (productTail_op_gives hop).mpr ⟨r, rest, hr', productTail_stop hrest⟩⟩

/-- Factors side by side. -/
theorem IsPower.juxtaposed {t : Token α} (ht : t.startsFactor) (hl : IsPower ts l)
    (hr : IsPower (t :: us) r) : IsProduct (ts ++ t :: us) (.binary .mul l r) := by
  intro rest hrest
  have hr' := hr rest fun t ht => Token.extendsPower_of_extendsProduct (hrest t ht)
  rw [List.append_assoc]
  exact product_gives.mpr
    ⟨l, _, hl _ (by rintro t ⟨⟩; exact Token.extendsPower_of_startsFactor ht),
      (productTail_factor_gives ht).mpr ⟨r, rest, hr', productTail_stop hrest⟩⟩

theorem IsProduct.isSum (h : IsProduct ts e) : IsSum ts e := fun rest hrest =>
  sum_gives.mpr ⟨e, rest, h rest fun t ht => Token.extendsProduct_of_extendsSum (hrest t ht),
    sumTail_stop hrest⟩

theorem IsOperand.isSum (h : IsOperand ts e) : IsSum ts e := h.isPower.isProduct.isSum

theorem IsProduct.binary {op : Op} (hop : op = .add ∨ op = .sub) (hl : IsProduct ts l)
    (hr : IsProduct us r) : IsSum (ts ++ .ofOp op :: us) (.binary op l r) := by
  intro rest hrest
  have hr' := hr rest fun t ht => Token.extendsProduct_of_extendsSum (hrest t ht)
  have hop' : (Token.ofOp (α := α) op).extendsProduct = false := by
    rcases hop with rfl | rfl <;> rfl
  rw [List.append_assoc]
  exact sum_gives.mpr ⟨l, _, hl _ (by rintro t ⟨⟩; exact hop'),
    (sumTail_op_gives hop).mpr ⟨r, rest, hr', sumTail_stop hrest⟩⟩

theorem IsSum.group (h : IsSum ts e) (b : Bracket) (rest : List (Token α)) :
    (group (Token.bracketed b ts ++ rest)).Gives e rest := by
  rw [Token.bracketed, List.cons_append, List.append_assoc]
  exact group_opening_gives.mpr (h _ (by rintro t ⟨⟩; rfl))

theorem IsSum.bracketed (h : IsSum ts e) (b : Bracket) :
    IsOperand (Token.bracketed b ts) e := fun rest =>
  unary_of_primary (primary_opening_gives.mpr (h.group b rest))

theorem IsSum.call (h : IsSum ts e) (f : Func) (b : Bracket) :
    IsOperand (.func f :: Token.bracketed b ts) (.call f e) := fun rest =>
  unary_of_primary (primary_func_gives.mpr ⟨e, rest, h.group b rest, rfl, rfl⟩)

theorem IsSum.fraction (hl : IsSum ts l) (hr : IsSum us r) (b b' : Bracket) :
    IsOperand (.fraction :: (Token.bracketed b ts ++ Token.bracketed b' us)) (.binary .div l r) := by
  intro rest
  rw [List.cons_append, List.append_assoc]
  exact unary_of_primary (primary_fraction_gives.mpr
    ⟨l, _, hl.group b _, r, rest, hr.group b' rest, rfl, rfl⟩)

theorem IsSum.ofTokens (h : IsSum ts e) : ofTokens ts = .ok e := by
  have hall := h [] nofun
  rw [List.append_nil] at hall
  obtain ⟨hlt, hsum⟩ := hall
  have hne : ts.isEmpty = false := List.isEmpty_eq_false_iff.mpr (List.length_pos_iff.mp hlt)
  rw [Expr.ofTokens, hne, hsum]
  rfl

end Expr

end Oscillator
