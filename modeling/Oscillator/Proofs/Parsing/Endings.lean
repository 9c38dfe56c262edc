import Oscillator.Proofs.Parsing.Descent
import Oscillator.Proofs.Parsing.Rules

/-! # How a descent ends

A descent follows a reader if from each position it ends with the reader's error, or with the reader's expression and
behind the tokens that this took. Brackets and arguments hold fewer tokens, signs and rounds of a loop start later,
and what is called at the same position is of a lower level. So each rule of the grammar follows its reader, and
calls are nested at most seven times as deep as tokens are left.
-/
namespace Oscillator

namespace Expr

open Outcome

variable {α : Type}

/-- What reads a list of tokens by a rule. -/
def Rule.read : Rule → (ts : List (Token α)) → Outcome α ts.length
  | expression | sum => Expr.sum
  | product => Expr.product
  | powers => Expr.powers
  | unary => Expr.unary
  | group => Expr.group
  | primary => Expr.primary

def Rule.level : Rule → Nat
  | group => 1
  | primary => 2
  | unary => 3
  | powers => 4
  | product => 5
  | sum => 6
  | expression => 7

/-- What reads the tokens behind a first operand. -/
def Loop.read : Loop → Expr α → (ts : List (Token α)) → Outcome α (ts.length + 1)
  | sum => sumTail
  | product => productTail
  | powers => powersTail

def Loop.level : Loop → Nat
  | powers => 4
  | product => 5
  | sum => 6

namespace Descent

variable {tokens : List (Token α)} {m n start pos depth : Nat} {r : Rule}

/-- A descent ends as an outcome says: with its error, or with its expression and behind the tokens that it
took. -/
inductive Ends (tokens : List (Token α)) : Option (Except ParseError (Expr α × Nat)) → Outcome α n → Prop
  | error (err : ParseError) : Ends tokens (some (.error err)) (.error err)
  | ok {e : Expr α} {pos : Nat} (le : pos ≤ tokens.length) (lt : (tokens.drop pos).length < n) :
    Ends tokens (some (.ok (e, pos))) (.ok ⟨e, tokens.drop pos, lt⟩)

theorem Ends.widen {x : Option (Except ParseError (Expr α × Nat))} {o : Outcome α m} (he : Ends tokens x o)
    (h : m ≤ n) : Ends tokens x (do return (← o).widen h) := by
  cases he with
  | error err => exact .error err
  | ok le lt => exact .ok le _

theorem Ends.stop {e : Expr α} {o : Outcome α n} (hle : start ≤ tokens.length)
    (ho : o.Gives e (tokens.drop start)) : Ends tokens (some (.ok (e, start))) o := by
  obtain ⟨lt, rfl⟩ := ho
  exact .ok hle lt

theorem Ends.bind {d : Descent (Expr α)} {o : Outcome α m} (hd : Ends tokens (d start) o)
    {next : Expr α → Descent (Expr α)} {next' : Reading α m → Outcome α n}
    (hnext : ∀ e pos h, pos ≤ tokens.length → Ends tokens (next e pos) (next' ⟨e, tokens.drop pos, h⟩)) :
    Ends tokens ((d >>= next) start) (o >>= next') := by
  have hbind : (d >>= next) start =
      (d start : ExceptT ParseError Option _) >>= fun x => next x.1 x.2 := rfl
  rw [hbind]
  generalize d start = x at hd
  cases hd with
  | error err => exact .error err
  | ok le lt => exact hnext _ _ lt le

/-- With fewer than `n` tokens left, calls for the rule end as reading these tokens by it does, if as many may be
nested as this takes. -/
def Follows (tokens : List (Token α)) (n : Nat) (r : Rule) : Prop :=
  ∀ start depth, tokens.length - start < n → 7 * (tokens.length - start) + r.level ≤ depth →
    Ends tokens (run tokens depth (.rule r) start) (r.read (tokens.drop start))

/-- The same of a loop, which starts behind its first operand. -/
def LoopFollows (tokens : List (Token α)) (n : Nat) (l : Loop) : Prop :=
  ∀ left start depth, start ≤ tokens.length → tokens.length - start < n →
    7 * (tokens.length - start) + l.level ≤ depth →
    Ends tokens (run tokens depth (.loop l left) start) (l.read left (tokens.drop start))

/-- It is enough to look at one call, given that calls for the same rule at later positions end. -/
theorem Follows.of_body (hbody : ∀ start depth, tokens.length - start < n →
      7 * (tokens.length - start) + r.level ≤ depth + 1 →
      (∀ pos, start < pos → pos ≤ tokens.length →
        Ends tokens (run tokens depth (.rule r) pos) (r.read (tokens.drop pos))) →
      Ends tokens (body tokens (run tokens depth) (.rule r) start) (r.read (tokens.drop start))) :
    Follows tokens n r := by
  intro start depth hlt hdepth
  induction depth generalizing start with
  | zero =>
    have hlevel : 0 < r.level := by cases r <;> decide
    omega
  | succ depth ih => exact hbody start depth hlt hdepth fun pos _ _ => ih pos (by omega) (by omega)

theorem LoopFollows.of_body {l : Loop} (hbody : ∀ left start depth, start ≤ tokens.length →
      tokens.length - start < n → 7 * (tokens.length - start) + l.level ≤ depth + 1 →
      (∀ left pos, start < pos → pos ≤ tokens.length →
        Ends tokens (run tokens depth (.loop l left) pos) (l.read left (tokens.drop pos))) →
      Ends tokens (body tokens (run tokens depth) (.loop l left) start) (l.read left (tokens.drop start))) :
    LoopFollows tokens n l := by
  intro left start depth hle hlt hdepth
  induction depth generalizing left start with
  | zero =>
    have hlevel : 0 < l.level := by cases l <;> decide
    omega
  | succ depth ih =>
    exact hbody left start depth hle hlt hdepth fun left pos _ hle => ih left pos hle (by omega) (by omega)

/-- What comes after an operand starts at a later position. -/
theorem Follows.bind (hr : Follows tokens n r) {ts : List (Token α)} (hts : tokens.drop start = ts)
    {next : Expr α → Descent (Expr α)} {next' : Reading α ts.length → Outcome α m}
    (hnext : ∀ e pos h, start < pos → pos ≤ tokens.length →
      Ends tokens (next e pos) (next' ⟨e, tokens.drop pos, h⟩))
    (hlt : tokens.length - start < n := by omega)
    (hdepth : 7 * (tokens.length - start) + r.level ≤ depth := by simp only [Rule.level]; omega) :
    Ends tokens ((run tokens depth (.rule r) >>= next) start) (r.read ts >>= next') := by
  subst hts
  exact (hr start depth hlt hdepth).bind fun e pos h hle => hnext e pos h (lt_of_length_drop_lt h) hle

/-- A rule with a loop is its operand and the loop behind it. -/
theorem Follows.loop {l : Loop} {whole : Rule} (hr : Follows tokens n r) (hl : LoopFollows tokens n l)
    (hbody : ∀ call, body tokens call (.rule whole) = do call (.loop l (← call (.rule r))))
    (hread : ∀ ts : List (Token α), whole.read ts = do
      let first ← r.read ts
      return (← l.read first.expr first.rest).widen first.rest_lt)
    (hlevel : r.level + 1 = whole.level) (hlevel' : l.level ≤ 6) : Follows tokens n whole := by
  refine .of_body fun start depth hlt hdepth _ => ?_
  rw [hbody, hread]
  refine hr.bind rfl (fun left pos _ hpos hle => ?_) hlt (by omega)
  exact (hl left pos depth hle (by omega) (by omega)).widen _

/-! ## Operands -/

theorem closed_ends {b : Bracket} {e : Expr α} (h : (tokens.drop pos).length < n) :
    Ends tokens ((expect tokens b >>= fun _ => return e) pos) (Reading.closed ⟨e, tokens.drop pos, h⟩ b) := by
  by_cases ht : tokens[pos]? = some (.closing b)
  · rw [bind_expect ht]
    exact .stop (lt_length ht) (gives_closed.mpr ⟨rfl, drop_eq_cons ht⟩)
  · rw [bind_expect_of_ne ht]
    unfold Reading.closed
    split
    case h_1 b' us hrest =>
      have hb : b' ≠ b := by
        rintro rfl
        refine ht ?_
        rw [← Nat.add_zero pos, ← List.getElem?_drop]
        exact congrArg (·[0]?) hrest
      rw [if_neg hb]
      exact .error _
    case h_2 => exact .error _

theorem group_follows (hexpression : Follows tokens n .expression) : Follows tokens (n + 1) .group := by
  refine .of_body fun start depth hlt hdepth _ => ?_
  rw [Rule.level] at hdepth
  rw [body, Rule.read]
  cases ht : tokens[start]? with
  | none =>
    rw [bind_consume_none ht, drop_eq_nil ht, group]
    · exact .error _
    all_goals simp
  | some t =>
    have hle := lt_length ht
    rw [bind_consume ht, drop_eq_cons ht]
    cases t with
    | opening b =>
      rw [group]
      exact hexpression.bind rfl fun e pos h _ _ => (closed_ends h).widen _
    | number x | symbol name =>
      rw [group]
      exact .ok hle _
    | _ =>
      rw [group]
      · exact .error _
      all_goals simp

theorem primary_follows (hpowers : Follows tokens n .powers) (hgroup : Follows tokens (n + 1) .group) :
    Follows tokens (n + 1) .primary := by
  refine .of_body fun start depth hlt hdepth _ => ?_
  rw [Rule.level] at hdepth
  rw [body, bind_peek, Rule.read]
  cases ht : tokens[start]? with
  | none =>
    dsimp only
    rw [bind_consume_none ht, drop_eq_nil ht, primary]
    · exact .error _
    all_goals simp
  | some t =>
    have hle := lt_length ht
    cases t with
    | opening b =>
      have hoperand := hgroup start depth hlt (by rw [Rule.level]; omega)
      rw [Rule.read, drop_eq_cons ht] at hoperand
      rw [drop_eq_cons ht, primary]
      exact hoperand
    | number x | symbol name | command name =>
      dsimp only
      rw [bind_consume ht, drop_eq_cons ht, primary]
      exact .ok hle _
    | fraction =>
      dsimp only
      rw [bind_consume ht, drop_eq_cons ht, primary]
      refine hgroup.bind rfl fun numerator pos _ _ _ => ?_
      exact hgroup.bind rfl fun denominator pos _ _ hle => .ok hle _
    | func f =>
      dsimp only
      rw [bind_consume ht, drop_eq_cons ht]
      dsimp only
      rw [bind_peek]
      cases hnext : tokens[start + 1]? with
      | none =>
        rw [primary]
        · exact hpowers.bind rfl fun arg pos _ _ hle => .ok hle _
        · simp [drop_eq_nil hnext]
      | some t =>
        cases t with
        | opening b =>
          rw [drop_eq_cons hnext, primary]
          exact hgroup.bind (drop_eq_cons hnext) fun arg pos _ _ hle => .ok hle _
        | _ =>
          rw [primary]
          · exact hpowers.bind rfl fun arg pos _ _ hle => .ok hle _
          · simp [drop_eq_cons hnext]
    | _ =>
      dsimp only
      rw [bind_consume ht, drop_eq_cons ht, primary]
      · exact .error _
      all_goals simp

theorem unary_follows (hprimary : Follows tokens n .primary) : Follows tokens n .unary := by
  refine .of_body fun start depth hlt hdepth hlater => ?_
  rw [Rule.level] at hdepth
  have hoperand := hprimary start depth hlt (by rw [Rule.level]; omega)
  simp only [Rule.read] at hoperand hlater ⊢
  rw [body, bind_peek]
  cases ht : tokens[start]? with
  | none =>
    rw [unary]
    · exact hoperand
    all_goals simp [drop_eq_nil ht]
  | some t =>
    have hnext := hlater (start + 1) (Nat.lt_succ_self start) (lt_length ht)
    rw [drop_eq_cons ht] at hoperand ⊢
    cases t with
    | minus =>
      dsimp only
      rw [bind_consume ht, unary]
      exact hnext.bind fun e pos _ hle => .ok hle _
    | plus =>
      dsimp only
      rw [bind_consume ht, unary]
      exact hnext.widen _
    | _ =>
      rw [unary]
      · exact hoperand
      all_goals simp

/-! ## Loops -/

theorem powersLoop_follows (hunary : Follows tokens n .unary) : LoopFollows tokens n .powers := by
  refine .of_body fun left start depth hle hlt hdepth hlater => ?_
  rw [Loop.level] at hdepth
  rw [body, bind_peek, Loop.read]
  cases ht : tokens[start]? with
  | none => exact .stop hle (powersTail_stop (by simp [drop_eq_nil ht]))
  | some t =>
    cases t with
    | caret =>
      dsimp only
      rw [bind_consume ht, drop_eq_cons ht, powersTail]
      exact hunary.bind rfl fun right pos _ hpos hle => (hlater _ pos (by omega) hle).widen _
    | _ => exact .stop hle (powersTail_stop (by simp [drop_eq_cons ht, Token.extendsPower]))

theorem productLoop_follows (hpowers : Follows tokens n .powers) : LoopFollows tokens n .product := by
  refine .of_body fun left start depth hle hlt hdepth hlater => ?_
  rw [Loop.level] at hdepth
  rw [body, bind_peek, Loop.read]
  cases ht : tokens[start]? with
  | none => exact .stop hle (productTail_stop (by simp [drop_eq_nil ht]))
  | some t =>
    cases t with
    | times | slash =>
      dsimp only
      rw [bind_consume ht, drop_eq_cons ht, productTail]
      exact hpowers.bind rfl fun right pos _ hpos hle => (hlater _ pos (by omega) hle).widen _
    | number | symbol | func | command | fraction | opening =>
      dsimp only
      rw [if_pos, drop_eq_cons ht, productTail, if_pos]
      · exact hpowers.bind (drop_eq_cons ht) fun right pos _ hpos hle => (hlater _ pos hpos hle).widen _
      all_goals simp [Token.startsFactor]
    | plus | minus | caret | closing =>
      refine .stop hle ?_
      rw [drop_eq_cons ht, productTail, if_neg]
      · exact gives_ok.mpr ⟨rfl, rfl⟩
      all_goals simp [Token.startsFactor]

theorem sumLoop_follows (hproduct : Follows tokens n .product) : LoopFollows tokens n .sum := by
  refine .of_body fun left start depth hle hlt hdepth hlater => ?_
  rw [Loop.level] at hdepth
  rw [body, bind_peek, Loop.read]
  cases ht : tokens[start]? with
  | none => exact .stop hle (sumTail_stop (by simp [drop_eq_nil ht]))
  | some t =>
    cases t with
    | plus | minus =>
      dsimp only
      rw [bind_consume ht, drop_eq_cons ht, sumTail]
      exact hproduct.bind rfl fun right pos _ hpos hle => (hlater _ pos (by omega) hle).widen _
    | _ =>
      rw [sumTail]
      · exact .ok hle _
      all_goals simp [drop_eq_cons ht]

/-! ## Rules -/

/-- From fewer tokens to one more, level by level. -/
theorem rule_follows (tokens : List (Token α)) (n : Nat) (r : Rule) : Follows tokens n r := by
  induction n generalizing r with
  | zero => exact nofun
  | succ n ih =>
    have hgroup := group_follows (ih .expression)
    have hprimary := primary_follows (ih .powers) hgroup
    have hunary := unary_follows hprimary
    have hpowers : Follows tokens (n + 1) .powers :=
      hunary.loop (powersLoop_follows hunary) (fun _ => rfl) powers.eq_1 rfl (by decide)
    have hproduct : Follows tokens (n + 1) .product :=
      hpowers.loop (productLoop_follows hpowers) (fun _ => rfl) product.eq_1 rfl (by decide)
    have hsum : Follows tokens (n + 1) .sum :=
      hproduct.loop (sumLoop_follows hproduct) (fun _ => rfl) sum.eq_1 rfl (by decide)
    cases r with
    | expression =>
      refine .of_body fun start depth hlt hdepth _ => ?_
      rw [Rule.level] at hdepth
      exact hsum start depth hlt (by rw [Rule.level]; omega)
    | sum => exact hsum
    | product => exact hproduct
    | powers => exact hpowers
    | unary => exact hunary
    | group => exact hgroup
    | primary => exact hprimary

/-- Seven calls for each token that is left, and seven more, are nested at most. -/
theorem rule_ends (tokens : List (Token α)) (r : Rule) (start : Nat)
    (hdepth : 7 * (tokens.length - start + 1) ≤ depth) :
    Ends tokens (run tokens depth (.rule r) start) (r.read (tokens.drop start)) := by
  have hlevel : r.level ≤ 7 := by cases r <;> decide
  exact rule_follows tokens (tokens.length + 1) r start depth (by omega) (by omega)

end Descent

end Expr

end Oscillator
