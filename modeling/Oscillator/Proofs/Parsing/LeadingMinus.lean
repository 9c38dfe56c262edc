import Oscillator.Proofs.Parsing.Rules
import Oscillator.Proofs.Parsing.Scanning

/-! # A minus before a text

A minus in front of a text is read into its first operand. The rest of the text is read as before,
token by token, around an operand that is now an opposite. An exponent right after the operand is
then an exponent of the opposite; without one, the operand stays a first factor.
-/
namespace Oscillator

namespace Token

variable {α : Type} [Arithmetic α]

omit [Arithmetic α] in
/-- Only symbols take an index. -/
theorem index_append_minus (suffix : List Char) (read : List (Token α)) :
    index suffix (read ++ [minus]) = index suffix read ++ [minus] := by
  cases read with
  | nil => rfl
  | cons t read => cases t <;> rfl

theorem scan_append_minus (read : List (Token α)) (cs : List Char) :
    scan (read ++ [minus]) cs = minus :: scan read cs := by
  fun_induction scan read cs with
  | case1 read => rw [scan, List.reverse_append]; rfl
  | case2 read c rest hblank ih =>
    rw [scan_blank hblank]
    exact ih
  | case3 read c rest _ hnumeral ih =>
    rw [scan_numeral hnumeral]
    exact ih
  | case4 read rest name hname _ _ ih =>
    rw [scan_escape (List.isEmpty_iff.mp hname)]
    exact ih
  | case5 read rest name hname _ _ ih =>
    rw [scan_command fun hempty => hname (List.isEmpty_iff.mpr hempty), ← List.append_assoc]
    exact ih
  | case6 read c rest _ _ _ hletter word afterWord token hword ih =>
    rw [scan_word hletter hword]
    exact ih
  | case7 read c rest _ _ _ hletter word afterWord hword ih =>
    rw [scan_symbols hletter hword, ← List.append_assoc, index_append_minus]
    exact ih
  | case8 read rest _ _ _ _ ih =>
    rw [scan_index, index_append_minus]
    exact ih
  | case9 read c rest _ _ _ _ _ hpower ih =>
    obtain ⟨rfl, hhead⟩ := hpower
    obtain ⟨rest, rfl⟩ := List.head?_eq_some_iff.mp hhead
    rw [scan_power]
    exact ih
  | case10 read c rest hblank hnumeral hslash hletter hindex hpower ih =>
    have hsingle : IsSingle c := ⟨eq_false_of_ne_true hblank, eq_false_of_ne_true hnumeral, hslash,
      eq_false_of_ne_true hletter, hindex⟩
    rw [scan_single hsingle fun hc hhead => hpower ⟨hc, hhead⟩, ← List.append_assoc]
    exact ih

theorem ofText_minus (s : String) : ofText (α := α) ("-" ++ s) = minus :: ofText s := by
  have h : Scans "-" [(minus : Token α)] s.toList := scans_mark (c := '-') rfl rfl (.inl (by decide))
  rw [ofText, String.toList_append, h []]
  exact scan_append_minus [] s.toList

end Token

namespace Expr

open Outcome

variable {α : Type} {n : Nat} {e e' l l' : Expr α} {ts us rest rest' : List (Token α)}

theorem Outcome.Gives.unique {o : Outcome α n} (h : o.Gives e rest) (h' : o.Gives e' rest') :
    e = e' ∧ rest = rest' := by
  obtain ⟨hlt, rfl⟩ := h
  obtain ⟨hlt', heq⟩ := h'
  cases heq
  exact ⟨rfl, rfl⟩

theorem ofTokens_eq_ok_iff : ofTokens ts = .ok e ↔ (sum ts).Gives e [] := by
  unfold ofTokens
  split
  case isTrue hempty =>
    refine iff_of_false (by simp) fun ⟨hlt, _⟩ => ?_
    rw [List.isEmpty_iff.mp hempty] at hlt
    cases hlt
  case isFalse =>
    cases sum ts with
    | error err => exact iff_of_false nofun not_gives_error
    | ok r =>
      obtain ⟨e', rest, hlt⟩ := r
      rw [gives_ok]
      cases rest with
      | nil => simp [bind, Except.bind, eq_comm]
      | cons t rest => cases t <;> simp [bind, Except.bind]

/-- What follows the first summand makes a sum or a difference of it. -/
theorem sumTail_cases (h : (sumTail l ts).Gives e rest) :
    (e = l ∧ rest = ts) ∨ ∃ a b, e = .binary .add a b ∨ e = .binary .sub a b := by
  obtain ⟨n, hn⟩ : ∃ n, ts.length = n := ⟨_, rfl⟩
  induction n using Nat.strong_induction_on generalizing l ts with
  | _ n ih =>
    have hnext (op : Op) (hop : op = .add ∨ op = .sub) {us : List (Token α)}
        (hts : ts = .ofOp op :: us) : ∃ a b, e = .binary .add a b ∨ e = .binary .sub a b := by
      subst hts
      obtain ⟨r, vs, ⟨hlt, _⟩, htail⟩ := (sumTail_op_gives hop).mp h
      rcases ih vs.length (by rw [← hn, List.length_cons]; omega) htail rfl with ⟨rfl, -⟩ | hbinary
      · rcases hop with rfl | rfl
        · exact ⟨l, r, .inl rfl⟩
        · exact ⟨l, r, .inr rfl⟩
      · exact hbinary
    cases ts with
    | nil =>
      rw [sumTail] at h
      · exact .inl (gives_ok.mp h)
      all_goals simp
    | cons t us =>
      cases t with
      | plus => exact .inr (hnext .add (.inl rfl) rfl)
      | minus => exact .inr (hnext .sub (.inr rfl) rfl)
      | _ =>
        rw [sumTail] at h
        · exact .inl (gives_ok.mp h)
        all_goals simp

/-- Whether a chain of exponents is read, and how far, does not depend on the base. -/
theorem powersTail_rebased (h : (powersTail l ts).Gives e rest) (l' : Expr α) :
    ∃ e', (powersTail l' ts).Gives e' rest := by
  obtain ⟨n, hn⟩ : ∃ n, ts.length = n := ⟨_, rfl⟩
  induction n using Nat.strong_induction_on generalizing l l' ts with
  | _ n ih =>
    by_cases hcaret : ∃ us, ts = .caret :: us
    · obtain ⟨us, rfl⟩ := hcaret
      obtain ⟨r, vs, hr, htail⟩ := powersTail_caret_gives.mp h
      have hlt : vs.length < n := by
        obtain ⟨hlt, _⟩ := hr
        rw [← hn, List.length_cons]
        omega
      obtain ⟨e', he'⟩ := ih vs.length hlt htail (power l' r) rfl
      exact ⟨e', powersTail_caret_gives.mpr ⟨r, vs, hr, he'⟩⟩
    · have hstop : ∀ us, ts ≠ .caret :: us := fun us hts => hcaret ⟨us, hts⟩
      rw [powersTail] at h
      · obtain ⟨-, rfl⟩ := gives_ok.mp h
        refine ⟨l', ?_⟩
        rw [powersTail]
        · exact gives_ok.mpr ⟨rfl, rfl⟩
        · exact hstop
      · exact hstop

section

/-! A relation between first factors that products and quotients keep. -/

variable {R : Expr α → Expr α → Prop}
  (hmul : ∀ {l l'}, R l' l → ∀ r, R (.binary .mul l' r) (.binary .mul l r))
  (hdiv : ∀ {l l'}, R l' l → ∀ r, R (.binary .div l' r) (.binary .div l r))
include hmul hdiv

theorem productTail_related (hl : R l' l) (h : (productTail l ts).Gives e rest) :
    ∃ e', (productTail l' ts).Gives e' rest ∧ R e' e := by
  obtain ⟨n, hn⟩ : ∃ n, ts.length = n := ⟨_, rfl⟩
  induction n using Nat.strong_induction_on generalizing l l' ts with
  | _ n ih =>
    have hbinary (op : Op) (hop : op = .mul ∨ op = .div) {us : List (Token α)}
        (hts : ts = .ofOp op :: us) : ∃ e', (productTail l' ts).Gives e' rest ∧ R e' e := by
      subst hts
      obtain ⟨r, vs, hr, htail⟩ := (productTail_op_gives hop).mp h
      have hlt : vs.length < n := by
        obtain ⟨hlt, _⟩ := hr
        rw [← hn, List.length_cons]
        omega
      have hrelated : R (.binary op l' r) (.binary op l r) := by
        rcases hop with rfl | rfl
        · exact hmul hl r
        · exact hdiv hl r
      obtain ⟨e', he', hR⟩ := ih vs.length hlt hrelated htail rfl
      exact ⟨e', (productTail_op_gives hop).mpr ⟨r, vs, hr, he'⟩, hR⟩
    have hfactor {t : Token α} {us : List (Token α)} (ht : t.startsFactor = true)
        (hts : ts = t :: us) : ∃ e', (productTail l' ts).Gives e' rest ∧ R e' e := by
      subst hts
      obtain ⟨r, vs, hr, htail⟩ := (productTail_factor_gives ht).mp h
      have hlt : vs.length < n := by
        obtain ⟨hlt, _⟩ := hr
        rwa [← hn]
      obtain ⟨e', he', hR⟩ := ih vs.length hlt (hmul hl r) htail rfl
      exact ⟨e', (productTail_factor_gives ht).mpr ⟨r, vs, hr, he'⟩, hR⟩
    cases ts with
    | nil =>
      rw [productTail] at h
      obtain ⟨rfl, rfl⟩ := gives_ok.mp h
      exact ⟨l', productTail_stop (by simp), hl⟩
    | cons t us =>
      cases t with
      | times => exact hbinary .mul (.inl rfl) rfl
      | slash => exact hbinary .div (.inr rfl) rfl
      | number | symbol | func | command | fraction | opening => exact hfactor rfl rfl
      | plus | minus | caret | closing =>
        rw [productTail, if_neg (by simp [Token.startsFactor])] at h
        · obtain ⟨rfl, rfl⟩ := gives_ok.mp h
          refine ⟨l', ?_, hl⟩
          rw [productTail, if_neg (by simp [Token.startsFactor])]
          · exact gives_ok.mpr ⟨rfl, rfl⟩
          all_goals simp
        all_goals simp

end

/-- An exponent stands right after the first operand. -/
def BeginsWithPower (ts : List (Token α)) : Prop :=
  ∃ base rest, (unary ts).Gives base (.caret :: rest)

section

variable {R : Expr α → Expr α → Prop} (hneg : ∀ u, R (.negate u) u)
  (hmul : ∀ {l l'}, R l' l → ∀ r, R (.binary .mul l' r) (.binary .mul l r))
  (hdiv : ∀ {l l'}, R l' l → ∀ r, R (.binary .div l' r) (.binary .div l r))
include hneg hmul hdiv

theorem product_minus_gives (h : (product ts).Gives e rest) :
    ∃ e', (product (.minus :: ts)).Gives e' rest ∧ (¬BeginsWithPower ts → R e' e) := by
  obtain ⟨p, us, hpowers, htail⟩ := product_gives.mp h
  obtain ⟨u, vs, hu, hexponents⟩ := powers_gives.mp hpowers
  have hminus : (unary (.minus :: ts)).Gives (.negate u) vs :=
    unary_minus_gives.mpr ⟨u, vs, hu, rfl, rfl⟩
  by_cases hpower : BeginsWithPower ts
  · obtain ⟨p', hp'⟩ := powersTail_rebased hexponents (.negate u)
    have hread : ∃ e', (productTail p' us).Gives e' rest ∧ True :=
      productTail_related (R := fun _ _ => True) (fun _ _ => trivial) (fun _ _ => trivial) trivial htail
    obtain ⟨e', he', -⟩ := hread
    exact ⟨e', product_gives.mpr ⟨p', us, powers_gives.mpr ⟨_, vs, hminus, hp'⟩, he'⟩,
      fun h => absurd hpower h⟩
  · -- Without an exponent the first power is its operand, and the minus makes it an opposite.
    have hstop : ∀ t ∈ vs.head?, t.extendsPower = false := by
      intro t ht
      cases vs with
      | nil => cases ht
      | cons t' vs =>
        cases ht
        cases t with
        | caret => exact absurd ⟨_, _, hu⟩ hpower
        | _ => rfl
    obtain ⟨rfl, rfl⟩ := hexponents.unique (powersTail_stop hstop)
    obtain ⟨e', he', hR⟩ := productTail_related hmul hdiv (hneg _) htail
    exact ⟨e', product_gives.mpr ⟨_, _, powers_gives.mpr ⟨_, _, hminus, powersTail_stop hstop⟩, he'⟩,
      fun _ => hR⟩

/-- A text that is no sum or difference stays readable with a minus before it, and without an exponent
after its first operand it is read as before, around the opposite of that operand. -/
theorem parse_minus [Arithmetic α] {s : String} (hp : parse s = .ok e)
    (hadd : ∀ a b, e ≠ .binary .add a b) (hsub : ∀ a b, e ≠ .binary .sub a b) :
    ∃ e', parse ("-" ++ s) = .ok e' ∧ (¬BeginsWithPower (Token.ofText (α := α) s) → R e' e) := by
  rw [parse, ofTokens_eq_ok_iff] at hp
  obtain ⟨l, us, hproduct, htail⟩ := sum_gives.mp hp
  rcases sumTail_cases htail with ⟨rfl, rfl⟩ | ⟨a, b, h | h⟩
  · obtain ⟨e', he', hR⟩ := product_minus_gives hneg hmul hdiv hproduct
    refine ⟨e', ?_, hR⟩
    rw [parse, Token.ofText_minus, ofTokens_eq_ok_iff]
    exact sum_gives.mpr ⟨e', [], he', sumTail_stop nofun⟩
  · exact absurd h (hadd a b)
  · exact absurd h (hsub a b)

end

end Expr

end Oscillator
