import Mathlib.Data.List.Basic
import Oscillator.Expr.Parser
import Oscillator.Proofs.Parsing.Kinds

/-! # Blanks between tokens

No run of digits or letters goes on past a blank, an operator or a bracket. So blanks that are put beside
one of these are passed over or dropped from an index, unless they come between an escape or an underscore
and what it takes.
-/
namespace Oscillator

namespace Text

variable {c : Char} {p q s w : List Char} {f : Char → Bool}

def operatorsAndBrackets : List Char := ['+', '-', '/', '^', '(', ')', '[', ']', '{', '}']

def isDelimiter (c : Char) : Bool := isBlank c || operatorsAndBrackets.contains c

theorem isDelimiter_of_isBlank (h : isBlank c = true) : isDelimiter c = true := by
  rw [isDelimiter, h, Bool.true_or]

theorem operatorsAndBrackets_kind : ∀ c ∈ operatorsAndBrackets,
    isLetter c = false ∧ Token.isNumeralChar c = false ∧ c ≠ '\\' ∧ c ≠ '*' := by
  intro c hc
  simp only [operatorsAndBrackets, List.mem_cons, List.not_mem_nil, or_false] at hc
  rcases hc with rfl | rfl | rfl | rfl | rfl | rfl | rfl | rfl | rfl | rfl
  all_goals decide

theorem isDelimiter_kind (h : isDelimiter c = true) :
    isLetter c = false ∧ Token.isNumeralChar c = false ∧ c ≠ '\\' ∧ c ≠ '*' := by
  rw [isDelimiter, Bool.or_eq_true, List.contains_iff_mem] at h
  rcases h with h | h
  · refine ⟨isLetter_eq_false_of_isBlank h, isNumeralChar_eq_false_of_isBlank h, ?_, ?_⟩
    · rintro rfl
      cases h
    · rintro rfl
      cases h
  · exact operatorsAndBrackets_kind c h

/-- A place between two parts of a text beside a delimiter, but not right after an escape or an
underscore. -/
structure IsSeam (p s : List Char) : Prop where
  delimiter : (∃ c ∈ p.getLast?, isDelimiter c = true) ∨ ∃ c ∈ s.head?, isDelimiter c = true
  slash : '\\' ∉ p.getLast?
  underscore : '_' ∉ p.getLast?

theorem IsSeam.suffix (h : IsSeam p s) (hq : q <:+ p) (hne : q ≠ []) : IsSeam q s := by
  obtain ⟨r, rfl⟩ := hq
  obtain ⟨hdelimiter, hslash, hunderscore⟩ := h
  rw [List.getLast?_append_of_ne_nil r hne] at hdelimiter hslash hunderscore
  exact ⟨hdelimiter, hslash, hunderscore⟩

/-- Without a delimiter before the seam there is one after it, also behind blanks. -/
theorem IsSeam.isDelimiter_head (h : IsSeam p s) (hp : ∀ c ∈ p, isDelimiter c = false)
    (hw : ∀ c ∈ w, isBlank c = true) : ∀ c ∈ (w ++ s).head?, isDelimiter c = true := by
  intro c hc
  cases w with
  | cons b w =>
    obtain rfl : b = c := Option.some.inj hc
    exact isDelimiter_of_isBlank (hw b List.mem_cons_self)
  | nil =>
    rcases h.delimiter with ⟨d, hd, hdelimiter⟩ | ⟨d, hd, hdelimiter⟩
    · rw [hp d (List.mem_of_getLast? hd)] at hdelimiter
      cases hdelimiter
    · rwa [Option.mem_unique hc hd]

/-- A run of one kind goes on in the second part only from the end of the first. -/
theorem run_append_of_head (h : (∀ c ∈ p, f c = true) → ∀ c ∈ s.head?, f c = false) :
    (p ++ s).takeWhile f = p.takeWhile f ∧ (p ++ s).dropWhile f = p.dropWhile f ++ s := by
  induction p with
  | nil =>
    cases s with
    | nil => exact ⟨rfl, rfl⟩
    | cons c s => simp [h nofun c rfl]
  | cons c p ih =>
    cases hc : f c with
    | false => simp [hc]
    | true =>
      obtain ⟨htake, hdrop⟩ := ih fun hp => h (List.forall_mem_cons.mpr ⟨hc, hp⟩)
      simp [hc, htake, hdrop]

/-- Runs of these characters end at delimiters. -/
def EndsAtDelimiters (f : Char → Bool) : Prop := ∀ c, f c = true → isDelimiter c = false

theorem endsAtDelimiters_isLetter : EndsAtDelimiters isLetter := fun c hc => by
  cases hd : isDelimiter c with
  | false => rfl
  | true => rw [(isDelimiter_kind hd).1] at hc; cases hc

theorem endsAtDelimiters_isNumeralChar : EndsAtDelimiters Token.isNumeralChar := fun c hc => by
  cases hd : isDelimiter c with
  | false => rfl
  | true => rw [(isDelimiter_kind hd).2.1] at hc; cases hc

theorem endsAtDelimiters_isAlpha : EndsAtDelimiters Char.isAlpha := fun c hc =>
  endsAtDelimiters_isLetter c (isLetter_of_isAlpha hc)

theorem endsAtDelimiters_isDigit : EndsAtDelimiters Char.isDigit := fun c hc =>
  endsAtDelimiters_isNumeralChar c (by rw [Token.isNumeralChar, hc, Bool.true_or])

/-- Before a seam a run is the same with blanks after it. -/
theorem IsSeam.run (h : IsSeam p s) (hf : EndsAtDelimiters f)
    (hq : (∀ c ∈ q, f c = true) → ∀ c ∈ p, isDelimiter c = false) (hw : ∀ c ∈ w, isBlank c = true) :
    (q ++ (w ++ s)).takeWhile f = q.takeWhile f ∧
      (q ++ (w ++ s)).dropWhile f = q.dropWhile f ++ (w ++ s) := by
  refine run_append_of_head fun hall c hc => ?_
  have hdelimiter := h.isDelimiter_head (hq hall) hw c hc
  cases hfc : f c with
  | false => rfl
  | true => rw [hf c hfc] at hdelimiter; cases hdelimiter

/-- So is one that goes on behind a character that is no delimiter. -/
theorem IsSeam.run_behind (h : IsSeam (c :: p) s) (hf : EndsAtDelimiters f) (hc : isDelimiter c = false)
    (hw : ∀ c ∈ w, isBlank c = true) :
    (p ++ (w ++ s)).takeWhile f = p.takeWhile f ∧
      (p ++ (w ++ s)).dropWhile f = p.dropWhile f ++ (w ++ s) :=
  h.run hf (fun hall => List.forall_mem_cons.mpr ⟨hc, fun d hd => hf d (hall d hd)⟩) hw

end Text

namespace Token

open Text

variable {α : Type} [Arithmetic α] {c : Char} {p s w : List Char}

theorem scan_blanks (hw : ∀ c ∈ w, isBlank c = true) (s : List Char) (read : List (Token α)) :
    scan read (w ++ s) = scan read s := by
  induction w with
  | nil => rfl
  | cons b w ih =>
    rw [List.cons_append, scan_blank (hw b List.mem_cons_self)]
    exact ih fun c hc => hw c (List.mem_cons_of_mem _ hc)

/-- An index in braces that is closed before some characters is read without them, and from one that is
not closed blanks are left out. -/
theorem splitSubscript_brace (p s : List Char) :
    (∃ suffix q, q <:+ p ∧ ∀ r, splitSubscript ('{' :: (p ++ r)) = (suffix, q ++ r)) ∨
      ∀ w, (∀ c ∈ w, isBlank c = true) →
        splitSubscript ('{' :: (p ++ (w ++ s))) = splitSubscript ('{' :: (p ++ s)) := by
  by_cases hclosed : '}' ∈ p
  · refine .inl ⟨(p.takeWhile (· != '}')).filter isLetterOrDigit, (p.dropWhile (· != '}')).drop 1,
      (List.drop_suffix _ _).trans (List.dropWhile_suffix _), fun r => ?_⟩
    obtain ⟨htake, hdrop⟩ := run_append_of_head (f := (· != '}')) (p := p) (s := r)
      fun hall => absurd (hall _ hclosed) (by decide)
    have hne : p.dropWhile (· != '}') ≠ [] := by
      rw [Ne, List.dropWhile_eq_nil_iff]
      exact fun hall => absurd (hall _ hclosed) (by decide)
    rw [splitSubscript, htake, hdrop, List.drop_append_of_le_length (List.length_pos_iff.mpr hne)]
  · refine .inr fun w hw => ?_
    have hp : ∀ c ∈ p, (c != '}') = true := fun c hc =>
      bne_iff_ne.mpr fun heq => hclosed (heq ▸ hc)
    have hblank : ∀ c ∈ w, (c != '}') = true := fun c hc =>
      bne_iff_ne.mpr fun heq => absurd (hw c hc) (by rw [heq]; decide)
    have hfilter : w.filter isLetterOrDigit = [] := List.filter_eq_nil_iff.mpr fun c hc => by
      rw [isLetterOrDigit_eq_false_of_isBlank (hw c hc)]
      exact Bool.false_ne_true
    rw [splitSubscript, splitSubscript, List.takeWhile_append_of_pos hp, List.takeWhile_append_of_pos hp,
      List.takeWhile_append_of_pos hblank, List.dropWhile_append_of_pos hp,
      List.dropWhile_append_of_pos hp, List.dropWhile_append_of_pos hblank, List.filter_append,
      List.filter_append, List.filter_append, hfilter, List.nil_append]

/-- One step leaves blanks behind a part of a text where they are, or drops them from an index. -/
def LeavesBlanks (read : List (Token α)) (c : Char) (p s : List Char) : Prop :=
  (∃ q read', q <:+ p ∧ ∀ w, (∀ c ∈ w, isBlank c = true) →
    scan read (c :: (p ++ (w ++ s))) = scan read' (q ++ (w ++ s))) ∨
  ∀ w, (∀ c ∈ w, isBlank c = true) → scan read (c :: (p ++ (w ++ s))) = scan read (c :: (p ++ s))

theorem leavesBlanks_slash (h : IsSeam ('\\' :: p) s) (read : List (Token α)) :
    LeavesBlanks read '\\' p s := by
  have hrun {w} (hw : ∀ c ∈ w, isBlank c = true) :=
    h.run_behind endsAtDelimiters_isAlpha (by decide) hw
  by_cases hname : p.takeWhile Char.isAlpha = []
  · obtain ⟨d, p, rfl⟩ : ∃ d p', p = d :: p' :=
      List.exists_cons_of_ne_nil fun hnil => h.slash (by rw [hnil]; rfl)
    exact .inl ⟨p, read, List.suffix_cons d p, fun w hw =>
      scan_escape ((hrun hw).1.trans hname) read⟩
  · refine .inl ⟨p.dropWhile Char.isAlpha,
      (ofCommand? (String.ofList (p.takeWhile Char.isAlpha))).toList ++ read,
      List.dropWhile_suffix _, fun w hw => ?_⟩
    rw [scan_command (by rwa [(hrun hw).1]), (hrun hw).1, (hrun hw).2]

theorem leavesBlanks_letter (h : IsSeam (c :: p) s) (hletter : isLetter c = true)
    (read : List (Token α)) : LeavesBlanks read c p s := by
  have hrun {w} (hw : ∀ c ∈ w, isBlank c = true) :=
    h.run_behind endsAtDelimiters_isLetter (endsAtDelimiters_isLetter c hletter) hw
  cases hword : ofWord? (α := α) (c :: p.takeWhile isLetter) with
  | some t =>
    refine .inl ⟨p.dropWhile isLetter, t :: read, List.dropWhile_suffix _, fun w hw => ?_⟩
    rw [scan_word hletter (by rwa [(hrun hw).1]), (hrun hw).2]
  | none =>
    refine .inl ⟨(p.dropWhile isLetter).dropWhile Char.isDigit,
      index ((p.dropWhile isLetter).takeWhile Char.isDigit)
        (letters (c :: p.takeWhile isLetter) ++ read),
      (List.dropWhile_suffix _).trans (List.dropWhile_suffix _), fun w hw => ?_⟩
    -- Up to the seam there are only letters and digits if the digits come up to it.
    have hall (hdigits : ∀ d ∈ p.dropWhile isLetter, d.isDigit = true) :
        ∀ d ∈ c :: p, isDelimiter d = false := by
      refine List.forall_mem_cons.mpr ⟨endsAtDelimiters_isLetter c hletter, fun d hd => ?_⟩
      rw [← List.takeWhile_append_dropWhile (p := isLetter) (l := p), List.mem_append] at hd
      rcases hd with hd | hd
      · exact endsAtDelimiters_isLetter d (List.mem_takeWhile_imp hd)
      · exact endsAtDelimiters_isDigit d (hdigits d hd)
    obtain ⟨htake, hdrop⟩ := h.run endsAtDelimiters_isDigit hall hw
    rw [scan_symbols hletter (by rwa [(hrun hw).1]), (hrun hw).1, (hrun hw).2, htake, hdrop]

theorem leavesBlanks_underscore (h : IsSeam ('_' :: p) s) (read : List (Token α)) :
    LeavesBlanks read '_' p s := by
  obtain ⟨d, p, rfl⟩ : ∃ d p', p = d :: p' :=
    List.exists_cons_of_ne_nil fun hnil => h.underscore (by rw [hnil]; rfl)
  by_cases hbrace : d = '{'
  · subst hbrace
    rcases splitSubscript_brace p s with ⟨suffix, q, hq, hclosed⟩ | hopen
    · refine .inl ⟨q, index suffix read, hq.trans (List.suffix_cons _ p), fun w _ => ?_⟩
      rw [List.cons_append, scan_index, hclosed]
    · refine .inr fun w hw => ?_
      rw [List.cons_append, scan_index, hopen w hw, ← scan_index]
      rfl
  · by_cases hd : isLetterOrDigit d = true
    · refine .inl ⟨p, index [d] read, List.suffix_cons d p, fun w _ => ?_⟩
      rw [List.cons_append, scan_index, splitSubscript_cons hbrace, if_pos hd]
    · refine .inl ⟨d :: p, index [] read, List.suffix_rfl, fun w _ => ?_⟩
      rw [List.cons_append, scan_index, splitSubscript_cons hbrace, if_neg hd]

theorem leavesBlanks_single (h : IsSeam (c :: p) s) (hsingle : IsSingle c) (read : List (Token α)) :
    LeavesBlanks read c p s := by
  by_cases hpower : c = '*' ∧ p.head? = some '*'
  · obtain ⟨rfl, hhead⟩ := hpower
    obtain ⟨p, rfl⟩ : ∃ p', p = '*' :: p' := List.head?_eq_some_iff.mp hhead
    exact .inl ⟨p, caret :: read, List.suffix_cons _ p, fun w _ => scan_power read _⟩
  · refine .inl ⟨p, (ofMark? c).toList ++ read, List.suffix_rfl, fun w hw =>
      scan_single hsingle (fun hc hhead => ?_) read⟩
    subst hc
    cases p with
    | nil =>
      have hdelimiter := h.isDelimiter_head (List.forall_mem_singleton.mpr rfl) hw '*' hhead
      exact absurd hdelimiter (by decide)
    | cons d p => exact hpower ⟨rfl, hhead⟩

/-- Blanks at a seam are left for the next step or dropped from an index. -/
theorem leavesBlanks (h : IsSeam (c :: p) s) (read : List (Token α)) : LeavesBlanks read c p s := by
  rcases kind_cases c with hblank | hnumeral | rfl | hletter | rfl | hsingle
  · exact .inl ⟨p, read, List.suffix_rfl, fun w _ => scan_blank hblank read _⟩
  · refine .inl ⟨p.dropWhile isNumeralChar, ofDigits (c :: p.takeWhile isNumeralChar) :: read,
      List.dropWhile_suffix _, fun w hw => ?_⟩
    obtain ⟨htake, hdrop⟩ :=
      h.run_behind endsAtDelimiters_isNumeralChar (endsAtDelimiters_isNumeralChar c hnumeral) hw
    rw [scan_numeral hnumeral, htake, hdrop]
  · exact leavesBlanks_slash h read
  · exact leavesBlanks_letter h hletter read
  · exact leavesBlanks_underscore h read
  · exact leavesBlanks_single h hsingle read

/-- Blanks at a seam add no token and take none away. -/
theorem scan_seam (hw : ∀ c ∈ w, isBlank c = true) (h : p ≠ [] → IsSeam p s) (read : List (Token α)) :
    scan read (p ++ (w ++ s)) = scan read (p ++ s) := by
  obtain ⟨n, hn⟩ : ∃ n, p.length = n := ⟨_, rfl⟩
  induction n using Nat.strong_induction_on generalizing p read with
  | _ n ih =>
    cases p with
    | nil => exact scan_blanks hw s read
    | cons c p =>
      have hseam := h (List.cons_ne_nil c p)
      rcases leavesBlanks hseam read with ⟨q, read', hq, hstep⟩ | hstep
      · have hlt : q.length < n := by
          rw [← hn, List.length_cons]
          exact Nat.lt_succ_of_le hq.length_le
        have hrest := ih q.length hlt
          (fun hne => hseam.suffix (hq.trans (List.suffix_cons c p)) hne) read' rfl
        have hnone := hstep [] nofun
        rw [List.nil_append] at hnone
        rw [List.cons_append, List.cons_append, hstep w hw, hnone, hrest]
      · exact hstep w hw

end Token

namespace Expr

open Text

/-- Blanks beside a delimiter make no difference to how a text is read, except right after an escape or an
underscore. -/
theorem parse_blanks {α : Type} [Arithmetic α] {p w s : String} (h : IsSeam p.toList s.toList)
    (hw : ∀ c ∈ w.toList, isBlank c = true) : parse (α := α) (p ++ w ++ s) = parse (p ++ s) := by
  have htokens : Token.ofText (α := α) (p ++ w ++ s) = Token.ofText (p ++ s) := by
    rw [Token.ofText, Token.ofText, String.toList_append, String.toList_append, String.toList_append,
      List.append_assoc]
    exact Token.scan_seam hw (fun _ => h) []
  rw [parse, parse, htokens]

/-- Blanks before the brace that closes an index. -/
theorem parse_blanks_index :
    IsSeam "2 C_\x7b1".toList "\x7d t".toList ∧ (∀ c ∈ " \n".toList, isBlank c = true) ∧
      parse (α := Float) ("2 C_\x7b1" ++ " \n" ++ "\x7d t") = parse ("2 C_\x7b1" ++ "\x7d t") := by
  have hseam : IsSeam "2 C_\x7b1".toList "\x7d t".toList :=
    ⟨.inr ⟨'}', rfl, by decide⟩, by decide, by decide⟩
  have hblank : ∀ c ∈ " \n".toList, isBlank c = true := by simp [isBlank]
  exact ⟨hseam, hblank, parse_blanks hseam hblank⟩

end Expr

end Oscillator
