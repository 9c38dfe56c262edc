import Oscillator.Proofs.Parsing.Endings
import Oscillator.Proofs.Parsing.Kinds

/-! # Reading ends

The loops over the characters of a text take at least one in each round, so they come to the tokens of the text
after as many rounds as it has characters, and one more. The descent over these ends too: on every text reading comes
to an expression or to an error.
-/
namespace Oscillator

namespace Token

open Text

/-! ## Loops -/

section

variable {σ β : Type} {round : σ → Option (σ ⊕ β)} {rounds limit : Nat}

/-- At most `rounds` rounds, up to the one that comes to a result; `none` if there is no such round. -/
def loop (round : σ → Option (σ ⊕ β)) : Nat → σ → Option β
  | 0, _ => none
  | rounds + 1, s => do
    match ← round s with
    | .inl s => loop round rounds s
    | .inr result => return result

/-- A loop ends if each round makes what is left smaller and keeps the result that is due. -/
theorem loop_eq (size : σ → Nat) (result : σ → β) (hround : ∀ s, size s < limit →
      round s = some (.inr (result s)) ∨
      ∃ s', round s = some (.inl s') ∧ size s' < size s ∧ result s' = result s)
    (hle : rounds ≤ limit) {s : σ} (hlt : size s < rounds) : loop round rounds s = some (result s) := by
  induction rounds generalizing s with
  | zero => exact absurd hlt (Nat.not_lt_zero _)
  | succ rounds ih =>
    rw [loop]
    rcases hround s (by omega) with hlast | ⟨s', hnext, hsmaller, hresult⟩
    · rw [hlast]
      rfl
    · rw [hnext, ← hresult]
      exact ih (by omega) (by omega)

end

variable {rounds : Nat} {cs : List Char}

/-- Takes characters of a kind as long as they come. -/
def takeRun (rounds : Nat) (kind : Char → Bool) (cs : List Char) : Option (List Char × List Char) :=
  loop (fun (taken, cs) =>
    match cs with
    | [] => some (.inr (taken, []))
    | c :: rest => some (if kind c then .inl (taken ++ [c], rest) else .inr (taken, c :: rest))) rounds ([], cs)

theorem takeRun_eq {kind : Char → Bool} (hlt : cs.length < rounds) :
    takeRun rounds kind cs = some (cs.takeWhile kind, cs.dropWhile kind) := by
  refine loop_eq (fun s : List Char × List Char => s.2.length)
    (fun s => (s.1 ++ s.2.takeWhile kind, s.2.dropWhile kind)) ?_ le_rfl hlt
  rintro ⟨taken, cs⟩ -
  cases cs with
  | nil => simp
  | cons c rest => by_cases hc : kind c <;> simp [hc]

/-- Takes the letters and digits of a braced group, and its end. -/
def takeGroup (rounds : Nat) (cs : List Char) : Option (List Char × List Char) :=
  loop (fun (taken, cs) =>
    match cs with
    | [] => some (.inr (taken, []))
    | c :: rest =>
      some (if c = '}' then .inr (taken, rest)
        else .inl (if isLetterOrDigit c then taken ++ [c] else taken, rest))) rounds ([], cs)

theorem takeGroup_eq (hlt : cs.length < rounds) :
    takeGroup rounds cs = some ((cs.takeWhile (· != '}')).filter isLetterOrDigit,
      (cs.dropWhile (· != '}')).drop 1) := by
  refine loop_eq (fun s : List Char × List Char => s.2.length)
    (fun s => (s.1 ++ (s.2.takeWhile (· != '}')).filter isLetterOrDigit, (s.2.dropWhile (· != '}')).drop 1))
    ?_ le_rfl hlt
  rintro ⟨taken, cs⟩ -
  cases cs with
  | nil => simp
  | cons c rest =>
    by_cases hc : c = '}'
    · simp [hc]
    · by_cases hkind : isLetterOrDigit c <;> simp [hc, hkind]

/-- Takes the index behind an underscore. -/
def takeSubscript (rounds : Nat) (cs : List Char) : Option (List Char × List Char) :=
  match cs with
  | '{' :: rest => takeGroup rounds rest
  | c :: rest => some (if isLetterOrDigit c then ([c], rest) else ([], c :: rest))
  | [] => some ([], [])

theorem takeSubscript_eq (hlt : cs.length < rounds) : takeSubscript rounds cs = some (splitSubscript cs) := by
  unfold takeSubscript
  split
  case h_1 rest => exact takeGroup_eq (Nat.lt_of_succ_lt hlt)
  case h_2 c rest hc => rw [splitSubscript_cons hc]
  case h_3 => rfl

/-! ## Texts -/

variable {α : Type} [Arithmetic α] {c : Char} {rest : List Char}

/-- A round of the loop over a text, from a character on. The runs of digits and of letters start at this
character: the round moves on only because it belongs to them. -/
def scanRound (rounds : Nat) (read : List (Token α)) (c : Char) (rest : List Char) :
    Option (List (Token α) × List Char) := do
  if isBlank c then return (read, rest)
  else if isNumeralChar c then
    let (run, after) ← takeRun rounds isNumeralChar (c :: rest)
    return (ofDigits run :: read, after)
  else if c = '\\' then
    let (name, after) ← takeRun rounds Char.isAlpha rest
    if name.isEmpty then return (read, after.drop 1)
    else return ((ofCommand? (String.ofList name)).toList ++ read, after)
  else if isLetter c then
    let (word, after) ← takeRun rounds isLetter (c :: rest)
    match ofWord? word with
    | some token => return (token :: read, after)
    | none =>
      let (digits, after) ← takeRun rounds Char.isDigit after
      return (index digits (letters word ++ read), after)
  else if c = '_' then
    let (suffix, after) ← takeSubscript rounds rest
    return (index suffix read, after)
  else if c = '*' ∧ rest.head? = some '*' then return (caret :: read, rest.drop 1)
  else return ((ofMark? c).toList ++ read, rest)

theorem scanRound_spec (read : List (Token α)) (hlt : (c :: rest).length < rounds) : ∃ read' cs,
    scanRound rounds read c rest = some (read', cs) ∧ cs.length ≤ rest.length ∧
      scan read' cs = scan read (c :: rest) := by
  have hlt' : rest.length < rounds := Nat.lt_of_succ_lt hlt
  rw [scanRound, scan]
  by_cases hblank : isBlank c
  · rw [if_pos hblank, if_pos hblank]
    exact ⟨_, _, rfl, le_rfl, rfl⟩
  rw [if_neg hblank, if_neg hblank]
  by_cases hnumeral : isNumeralChar c
  · rw [if_pos hnumeral, if_pos hnumeral, takeRun_eq hlt, List.takeWhile_cons_of_pos hnumeral,
      List.dropWhile_cons_of_pos hnumeral]
    exact ⟨_, _, rfl, List.length_dropWhile_le _ _, rfl⟩
  rw [if_neg hnumeral, if_neg hnumeral]
  by_cases hslash : c = '\\'
  · rw [if_pos hslash, if_pos hslash, takeRun_eq hlt']
    by_cases hname : (rest.takeWhile Char.isAlpha).isEmpty
    · have hafter : rest.dropWhile Char.isAlpha = rest := by
        have hsplit := List.takeWhile_append_dropWhile (p := Char.isAlpha) (l := rest)
        rwa [List.isEmpty_iff.mp hname, List.nil_append] at hsplit
      exact ⟨read, rest.drop 1, (if_pos hname).trans (by rw [hafter]; rfl), by simp, (if_pos hname).symm⟩
    · exact ⟨_, _, if_neg hname, List.length_dropWhile_le _ _, (if_neg hname).symm⟩
  rw [if_neg hslash, if_neg hslash]
  by_cases hletter : isLetter c
  · rw [if_pos hletter, if_pos hletter, takeRun_eq hlt, List.takeWhile_cons_of_pos hletter,
      List.dropWhile_cons_of_pos hletter]
    have hafter : (rest.dropWhile isLetter).length < rounds := lt_of_le_of_lt (List.length_dropWhile_le _ _) hlt'
    cases hword : ofWord? (α := α) (c :: rest.takeWhile isLetter) with
    | some token =>
      exact ⟨token :: read, rest.dropWhile isLetter, by simp [hword], List.length_dropWhile_le _ _, by simp [hword]⟩
    | none =>
      refine ⟨index ((rest.dropWhile isLetter).takeWhile Char.isDigit)
          (letters (c :: rest.takeWhile isLetter) ++ read), (rest.dropWhile isLetter).dropWhile Char.isDigit,
        by simp [hword, takeRun_eq hafter], ?_, by simp [hword]⟩
      exact (List.length_dropWhile_le _ _).trans (List.length_dropWhile_le _ _)
  rw [if_neg hletter, if_neg hletter]
  by_cases hunder : c = '_'
  · rw [if_pos hunder, if_pos hunder, takeSubscript_eq hlt']
    exact ⟨_, _, rfl, splitSubscript_length rest, rfl⟩
  rw [if_neg hunder, if_neg hunder]
  by_cases hpower : c = '*' ∧ rest.head? = some '*'
  · rw [if_pos hpower, if_pos hpower]
    exact ⟨_, _, rfl, by simp, rfl⟩
  · rw [if_neg hpower, if_neg hpower]
    exact ⟨_, _, rfl, le_rfl, rfl⟩

/-- The loop over a text, with as many rounds at most as each loop in it. -/
def tokenize (rounds : Nat) (text : String) : Option (List (Token α)) :=
  loop (fun (read, cs) =>
    match cs with
    | [] => some (.inr read.reverse)
    | c :: rest => (scanRound rounds read c rest).map .inl) rounds ([], text.toList)

theorem tokenize_eq {text : String} (hlt : text.length < rounds) :
    tokenize (α := α) rounds text = some (ofText text) := by
  refine loop_eq (fun s : List (Token α) × List Char => s.2.length) (fun s => scan s.1 s.2) ?_ le_rfl hlt
  rintro ⟨read, cs⟩ hsize
  cases cs with
  | nil => exact .inl (by rw [scan_nil])
  | cons c rest =>
    obtain ⟨read', cs, hround, hle, hscan⟩ := scanRound_spec read hsize
    exact .inr ⟨(read', cs), congrArg (Option.map Sum.inl) hround, Nat.lt_succ_of_le hle, hscan⟩

omit [Arithmetic α] in
theorem length_index (suffix : List Char) (read : List (Token α)) :
    (index suffix read).length = read.length := by
  unfold index
  split <;> rfl

/-- There are no more tokens than characters. -/
theorem length_scan_le (read : List (Token α)) (cs : List Char) :
    (scan read cs).length ≤ read.length + cs.length := by
  have single (token? : Option (Token α)) : token?.toList.length ≤ 1 := by cases token? <;> simp
  fun_induction scan read cs with
  | case1 read => simp
  | case2 read c rest hblank ih => exact ih.trans (by simp)
  | case3 read c rest hblank hnumeral ih =>
    have := List.length_dropWhile_le isNumeralChar rest
    simp only [List.length_cons] at ih ⊢
    omega
  | case4 read rest name hname hblank hnumeral ih => exact ih.trans (by simp; omega)
  | case5 read rest name hname hblank hnumeral ih =>
    have := List.length_dropWhile_le Char.isAlpha rest
    have := single (ofCommand? (String.ofList name))
    simp only [List.length_append, List.length_cons] at ih ⊢
    omega
  | case6 read c rest hblank hnumeral hslash hletter word afterWord token hword ih =>
    have := List.length_dropWhile_le isLetter rest
    simp only [afterWord, List.length_cons] at ih ⊢
    omega
  | case7 read c rest hblank hnumeral hslash hletter word afterWord hword ih =>
    have hletters : (letters (α := α) word).length = word.length := by simp [letters]
    have hword : word.length + afterWord.length = (c :: rest).length := by
      rw [← List.length_append, List.cons_append, List.takeWhile_append_dropWhile]
    have := List.length_dropWhile_le Char.isDigit afterWord
    rw [length_index, List.length_append, hletters] at ih
    omega
  | case8 read rest hblank hnumeral hslash hletter ih =>
    have := splitSubscript_length rest
    simp only [length_index, List.length_cons] at ih ⊢
    omega
  | case9 read c rest hblank hnumeral hslash hletter hunder hpower ih =>
    simp only [List.length_cons, List.length_drop] at ih ⊢
    omega
  | case10 read c rest hblank hnumeral hslash hletter hunder hpower ih =>
    have := single (ofMark? c)
    simp only [List.length_append, List.length_cons] at ih ⊢
    omega

end Token

namespace Expr

namespace Descent

variable {α : Type}

/-! ## Expressions -/

/-- Reads all tokens as one expression. -/
def ofTokens (depth : Nat) (tokens : List (Token α)) : ExceptT ParseError Option (Expr α) := do
  if tokens.isEmpty then throw .empty
  let (e, pos) ← run tokens depth (.rule .expression) 0
  match tokens[pos]? with
  | none => return e
  | some (.closing b) => throw (.trailing b)
  | some _ => throw .noOperand

theorem ofTokens_eq {tokens : List (Token α)} {depth : Nat} (hdepth : 7 * (tokens.length + 1) ≤ depth) :
    ofTokens depth tokens = some (Expr.ofTokens tokens) := by
  rw [ofTokens, Expr.ofTokens]
  by_cases hempty : tokens.isEmpty
  · rw [if_pos hempty, if_pos hempty]
    rfl
  · rw [if_neg hempty, if_neg hempty]
    have hends : Ends tokens (run tokens depth (.rule .expression) 0) (sum tokens) :=
      rule_ends tokens .expression 0 hdepth
    generalize run tokens depth (.rule .expression) 0 = x, sum tokens = o at hends
    cases hends with
    | error err => rfl
    | @ok e pos le lt =>
      simp only [bind, Except.bind, ExceptT.bind, ExceptT.mk, ExceptT.bindCont, Option.bind_some]
      cases ht : tokens[pos]? with
      | none =>
        rw [drop_eq_nil ht]
        rfl
      | some t =>
        rw [drop_eq_cons ht]
        cases t <;> rfl

/-- Reads a text with so many rounds of each loop over it, and so many calls nested, at most. -/
def parse [Arithmetic α] (limit : Nat) (text : String) : ExceptT ParseError Option (Expr α) := do
  ofTokens limit (← Token.tokenize limit text)

theorem parse_eq [Arithmetic α] {limit : Nat} {text : String} (hlimit : 7 * (text.length + 1) ≤ limit) :
    parse (α := α) limit text = some (Expr.parse text) := by
  have htokens : Token.tokenize (α := α) limit text = some (Token.ofText text) :=
    Token.tokenize_eq (by omega)
  have hlength : (Token.ofText (α := α) text).length ≤ text.length := by
    have hscan := Token.length_scan_le (α := α) [] text.toList
    rwa [List.length_nil, Nat.zero_add, String.length_toList] at hscan
  rw [parse, htokens]
  exact ofTokens_eq (by omega)

/-- Reading ends. By each rule and from each position, calls nested seven times as deep as tokens are left come to
what reading these tokens comes to: an error, or an expression behind at least one token and none that is not there.
Each text has its tokens after as many rounds as it has characters and one more, and is read to an expression or an
error. With more calls or rounds the same comes out. -/
theorem reading_ends [Arithmetic α] :
    (∀ (rule : Rule) (tokens : List (Token α)) (start more : Nat),
      let outcome := run tokens (7 * (tokens.length - start + 1) + more) (.rule rule) start
      (∃ err, outcome = some (.error err) ∧ rule.read (tokens.drop start) = .error err) ∨
      ∃ e pos, outcome = some (.ok (e, pos)) ∧ (rule.read (tokens.drop start)).Gives e (tokens.drop pos) ∧
        start < pos ∧ pos ≤ tokens.length) ∧
      (∀ (text : String) (more : Nat),
        Token.tokenize (α := α) (text.length + 1 + more) text = some (Token.ofText text)) ∧
      ∀ (text : String) (more : Nat),
        parse (α := α) (7 * (text.length + 1) + more) text = some (Expr.parse text) := by
  refine ⟨fun rule tokens start more => ?_, fun text more => Token.tokenize_eq (by omega),
    fun text more => parse_eq (by omega)⟩
  have hends := rule_ends tokens rule start (Nat.le_add_right _ more)
  dsimp only
  generalize run tokens _ (.rule rule) start = x, rule.read (tokens.drop start) = o at hends
  cases hends with
  | error err => exact .inl ⟨err, rfl, rfl⟩
  | @ok e pos le lt => exact .inr ⟨e, pos, rfl, ⟨lt, rfl⟩, lt_of_length_drop_lt lt, le⟩

end Descent

end Expr

end Oscillator
