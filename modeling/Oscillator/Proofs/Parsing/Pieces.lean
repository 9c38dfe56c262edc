import Oscillator.Proofs.Parsing.Constants

/-! # Pieces of a plain text

A plain text is scanned piece by piece. Each piece leaves one account unchanged: the constants among the
tokens read so far, with the index that is still to come, and those found in the characters that follow.
-/
namespace Oscillator

namespace Placeholder

open Text Token

variable {α : Type} {d : Char} {p u s cs : List Char} {read read' : List (Token α)}

/-- The account at a place: the constants among the tokens read, with the index that is still to come, and
those that are found behind the place. -/
def Expected (d : Char) (p s : List Char) (read : List (Token α)) : Prop :=
  Named d (names (index (frontIndex s) read)) ∨ ofIndex d ∈ findFrom p.getLast? s

/-- No command goes on behind this place. -/
def IsFresh (p s : List Char) : Prop := ∀ c ∈ s.head?, c.isAlpha = true → ¬EndsInCommand p

theorem isFresh_of_isAlpha (h : ∀ c ∈ s.head?, c.isAlpha = false) : IsFresh p s := fun c hc halpha =>
  absurd halpha (by simp [h c hc])

/-- A command is not inside a word. -/
theorem IsFresh.word {w : List Char} {c : Char} (h : IsFresh p (w ++ c :: s))
    (hw : ∀ b ∈ w, isLetter b = true) (hc : c.isAlpha = true) : ¬EndsInCommand (p ++ w) := by
  induction w generalizing p with
  | nil =>
    rw [List.append_nil]
    exact h c rfl hc
  | cons b w ih =>
    obtain ⟨hb, hw⟩ := List.forall_mem_cons.mp hw
    have hnext : ¬EndsInCommand (p ++ [b]) := by
      cases halpha : b.isAlpha with
      | true => rw [endsInCommand_concat halpha]; exact h b rfl halpha
      | false =>
        rw [endsInCommand_concat_of_not halpha]
        rintro ⟨rfl, -⟩
        cases hb
    have hword := ih (p := p ++ [b]) (fun _ _ _ => hnext) hw
    rwa [List.append_assoc, List.singleton_append] at hword

/-- The last letter of a word is a constant with an index for the reader exactly if it is for the search. -/
theorem named_symbols (hd : d = '1' ∨ d = '2') {w ds : List Char} {c : Char}
    (h : IsPlain (p ++ w ++ c :: (ds ++ s))) (hfresh : IsFresh p (w ++ c :: (ds ++ s)))
    (hw : ∀ b ∈ w, isLetter b = true) (hds : ∀ x ∈ ds, x.isDigit = true)
    (hs : ∀ x ∈ s.head?, x.isDigit = false) (read : List (Token α)) :
    Named d (names (index (frontIndex s) (index ds (letters (w ++ [c]) ++ read)))) ↔
      between? (p ++ w).getLast? c (ds ++ s) = some (ofIndex d) ∨ Named d (names read) := by
  have hname : (∃ b, isConstantLetter b = true ∧
      String.ofList [b, d] = String.ofList (c :: (ds ++ frontIndex s))) ↔
        isConstantLetter c = true ∧ ds ++ frontIndex s = [d] := by
    constructor
    · rintro ⟨b, hb, heq⟩
      obtain ⟨rfl, hindex⟩ := List.cons.inj (String.ofList_injective heq)
      exact ⟨hb, hindex.symm⟩
    · exact fun ⟨hb, hindex⟩ => ⟨c, hb, by rw [hindex]⟩
  rw [names_index_letters, named_cons, named_letters, hname, between?_eq_some hd]
  refine or_congr_left (and_congr_right fun hc => index_eq_singleton_iff hd h hc ?_ hds hs)
  exact hfresh.word hw (isAlpha_of_isConstantLetter hc)

/-! ## What an underscore takes -/

/-- Behind `v`, which an underscore takes with this suffix for a name, stands no base for another index but a
letter in the index, and no command is open; inside of it the index goes on. -/
structure IsIndexPiece (v suffix s : List Char) : Prop where
  base : ∀ p, '_' ∈ s.head? → EndsInBase (p ++ '_' :: v) → ∃ x, suffix = [x] ∧ isLetter x = true
  fresh : ∀ p, IsFresh (p ++ '_' :: v) s
  inside : ∀ p q c r, v = q ++ c :: r → isConstantLetter c = true → ¬EndsOutside (p ++ '_' :: q)

theorem isIndexPiece_nil (s : List Char) : IsIndexPiece [] [] s where
  base p _ hbase := absurd hbase (endsInNeither_underscore p).2
  fresh p _ _ _ := (endsInNeither_underscore p).1
  inside := by simp

theorem isIndexPiece_singleton {x : Char} (hx : isLetterOrDigit x = true) (s : List Char) :
    IsIndexPiece [x] [x] s where
  base p _ hbase := by
    obtain ⟨b, hb, hletter, -⟩ := hbase.letter
    rw [List.append_cons, List.getLast?_concat] at hb
    obtain rfl := Option.some.inj hb
    exact ⟨_, rfl, hletter⟩
  fresh p _ _ _ hcommand := by
    rw [List.append_cons] at hcommand
    cases halpha : x.isAlpha with
    | true =>
      rw [endsInCommand_concat halpha] at hcommand
      exact (endsInNeither_underscore p).1 hcommand
    | false =>
      obtain ⟨rfl, -⟩ := (endsInCommand_concat_of_not halpha).mp hcommand
      cases hx
  inside p q c r hq _ houtside := by
    cases q with
    | nil => exact houtside.index List.getLast?_concat
    | cons b q => simp at hq

theorem rtakeWhile_append {f : Char → Bool} (h : ∀ c ∈ u, f c = true) (p : List Char) :
    (p ++ u).rtakeWhile f = p.rtakeWhile f ++ u := by
  have hreverse : ∀ c ∈ u.reverse, f c = true := fun c hc => h c (List.mem_reverse.mp hc)
  rw [List.rtakeWhile, List.rtakeWhile, List.reverse_append, List.takeWhile_append_of_pos hreverse,
    List.reverse_append, List.reverse_reverse]

/-- A group that is closed, or open up to the end of the text. -/
theorem isIndexPiece_group {w close : List Char} (hw : ∀ c ∈ w, c ≠ '}')
    (hclose : close = ['}'] ∨ close = [] ∧ s = []) (suffix : List Char) :
    IsIndexPiece ('{' :: (w ++ close)) suffix s := by
  have hend (hs : s ≠ []) (p : List Char) : ¬EndsInCommand (p ++ '_' :: '{' :: (w ++ close)) ∧
      ¬EndsInBase (p ++ '_' :: '{' :: (w ++ close)) := by
    obtain rfl := hclose.resolve_right fun h => hs h.2
    have hapart := endsInNeither (p := p ++ '_' :: '{' :: w) (List.cons_ne_nil '}' [])
      (List.forall_mem_singleton.mpr ⟨rfl, by decide⟩)
    simpa using hapart
  constructor
  case base =>
    intro p hs hbase
    exact absurd hbase (hend (fun hnil => by simp [hnil] at hs) p).2
  case fresh =>
    intro p c hc _
    exact (hend (fun hnil => by simp [hnil] at hc) p).1
  case inside =>
    intro p q c r hq hc houtside
    cases q with
    | nil =>
      obtain ⟨rfl, -⟩ := List.cons.inj hq
      cases hc
    | cons b q =>
      obtain ⟨rfl, hgroup⟩ := List.cons.inj hq
      have hmem : ∀ b ∈ q, b ∈ w := by
        rcases List.append_eq_append_iff.mp hgroup with ⟨a, rfl, hclose'⟩ | ⟨a, rfl, -⟩
        · have hmem : c ∈ close := by simp [hclose']
          rcases hclose with rfl | ⟨rfl, -⟩
          · rw [List.mem_singleton.mp hmem] at hc
            cases hc
          · cases hmem
        · exact fun b hb => List.mem_append_left a hb
      have hopen : ∀ b ∈ '_' :: '{' :: q, (b != '}') = true := by
        simpa using fun b hb => hw b (hmem b hb)
      refine houtside.group ?_
      rw [rtakeWhile_append hopen]
      exact ⟨p.rtakeWhile (· != '}'), q, by simp⟩

theorem splitSubscript_piece (cs : List Char) :
    ∃ v, cs = v ++ (splitSubscript cs).2 ∧ IsIndexPiece v (splitSubscript cs).1 (splitSubscript cs).2 := by
  cases cs with
  | nil => exact ⟨[], rfl, isIndexPiece_nil []⟩
  | cons x cs =>
    by_cases hbrace : x = '{'
    · subst hbrace
      have hw : ∀ c ∈ cs.takeWhile (· != '}'), c ≠ '}' := fun c hc => by
        have hc' := List.mem_takeWhile_imp hc
        exact bne_iff_ne.mp hc'
      have hsplit : (splitSubscript ('{' :: cs)).2 = (cs.dropWhile (· != '}')).drop 1 := rfl
      refine ⟨'{' :: (cs.takeWhile (· != '}') ++ (cs.dropWhile (· != '}')).take 1), ?_,
        isIndexPiece_group hw ?_ _⟩
      · rw [hsplit, List.cons_append, List.append_assoc, List.take_append_drop,
          List.takeWhile_append_dropWhile]
      · cases hdrop : cs.dropWhile (· != '}') with
        | nil => exact .inr ⟨rfl, by rw [hsplit, hdrop]; rfl⟩
        | cons b s =>
          have hb := eq_false_of_mem_head?_dropWhile (f := (· != '}')) (s := cs) b (by rw [hdrop]; rfl)
          obtain rfl : b = '}' := by simpa using hb
          exact .inl rfl
    · by_cases hx : isLetterOrDigit x = true
      · rw [splitSubscript_cons hbrace, if_pos hx]
        exact ⟨[x], rfl, isIndexPiece_singleton hx cs⟩
      · rw [splitSubscript_cons hbrace, if_neg hx]
        exact ⟨[], rfl, isIndexPiece_nil _⟩

/-! ## Steps -/

variable [Arithmetic α]

/-- A piece of a text is scanned as this change of the tokens read, which leaves the account unchanged. -/
structure Step (d : Char) (p u s : List Char) (read read' : List (Token α)) : Prop where
  scan : Token.scan read (u ++ s) = Token.scan read' s
  fresh : IsFresh (p ++ u) s
  begins : BeginIn (p ++ u) (names read')
  expected : Expected d (p ++ u) s read' ↔ Expected d p (u ++ s) read

/-- A piece without constants that adds no name and takes no index. -/
theorem Step.of_misses {c : Char} (hc : c ≠ '_') (hbegin : BeginIn p (names read))
    (hscan : Token.scan read (c :: u ++ s) = Token.scan read' s) (hnames : names read' = names read)
    (hfresh : IsFresh (p ++ c :: u) s) (hmisses : Misses d p (c :: u) s)
    (hindex : Named d (names (index (frontIndex s) read')) ↔ Named d (names read')) :
    Step d p (c :: u) s read read' where
  scan := hscan
  fresh := hfresh
  begins := by
    rw [hnames]
    exact hbegin.append _
  expected := by
    rw [Expected, Expected, hindex, hnames, List.cons_append, frontIndex_of_ne hc, index_nil,
      ← List.cons_append, hmisses.mem_findFrom]

variable (hd : d = '1' ∨ d = '2')
include hd

/-- A piece behind which no index is taken. -/
theorem Step.of_token {c : Char} {t : Option (Token α)} (h : IsPlain (p ++ (c :: u ++ s)))
    (hbegin : BeginIn p (names read)) (hc : c ≠ '_')
    (hscan : Token.scan read (c :: u ++ s) = Token.scan (t.toList ++ read) s)
    (ht : ∀ t' ∈ t, t'.name? = none) (hu : ∀ b ∈ c :: u, isConstantLetter b = false)
    (hfresh : IsFresh (p ++ c :: u) s) (hbase : ¬EndsInBase (p ++ c :: u)) :
    Step d p (c :: u) s read (t.toList ++ read) := by
  have hnames : names (t.toList ++ read) = names read := by
    cases t with
    | none => rfl
    | some t => exact names_cons_of_name?_eq_none (ht t rfl) read
  rw [← List.append_assoc] at h
  refine .of_misses hc hbegin hscan hnames hfresh (misses_of_isConstantLetter hd hu) ?_
  exact named_index_frontIndex h (hnames ▸ hbegin.append _) fun _ => hbase

/-- A piece of characters that are part of no name. -/
theorem Step.of_marks {c : Char} {t : Option (Token α)} (h : IsPlain (p ++ (c :: u ++ s)))
    (hbegin : BeginIn p (names read)) (hu : ∀ b ∈ c :: u, IsMark b)
    (hscan : Token.scan read (c :: u ++ s) = Token.scan (t.toList ++ read) s)
    (ht : ∀ t' ∈ t, t'.name? = none) :
    Step d p (c :: u) s read (t.toList ++ read) := by
  obtain ⟨hcommand, hbase⟩ := endsInNeither_marks (p := p) (List.cons_ne_nil c u) hu
  exact .of_token hd h hbegin (hu c List.mem_cons_self).underscore hscan ht
    (fun b hb => isConstantLetter_eq_false (isAlpha_eq_false (hu b hb).letter)) (fun _ _ _ => hcommand) hbase

theorem Step.escape (h : IsPlain (p ++ '\\' :: cs))
    (hbegin : BeginIn p (names read)) (hname : cs.takeWhile Char.isAlpha = []) :
    Step d p ('\\' :: cs.take 1) (cs.drop 1) read read := by
  have hscan : Token.scan read ('\\' :: cs.take 1 ++ cs.drop 1) = Token.scan read (cs.drop 1) := by
    rw [List.cons_append, List.take_append_drop, scan_escape hname]
  rw [← List.take_append_drop 1 cs, ← List.cons_append] at h
  cases cs with
  | nil =>
    refine .of_token (t := none) hd h hbegin (by decide) hscan nofun (List.forall_mem_singleton.mpr rfl) nofun
      fun hbase => ?_
    obtain ⟨b, hb, hbletter, -⟩ := hbase.letter
    rw [List.take_nil, List.getLast?_concat] at hb
    obtain rfl := Option.some.inj hb
    cases hbletter
  | cons x cs =>
    have halpha : x.isAlpha = false := by
      cases hx : x.isAlpha with
      | false => rfl
      | true => simp [hx] at hname
    have happend : p ++ '\\' :: (x :: cs).take 1 = p ++ ['\\'] ++ [x] := by simp
    refine .of_token (t := none) hd h hbegin (by decide) hscan nofun ?_ (fun _ _ _ hcommand => ?_)
      fun hbase => ?_
    · simpa using ⟨by decide, isConstantLetter_eq_false halpha⟩
    · rw [happend, endsInCommand_concat_of_not halpha] at hcommand
      exact hcommand.2 (by simp)
    · obtain ⟨b, hb, -, hhidden⟩ := hbase.letter
      rw [happend, List.getLast?_concat] at hb
      rw [happend, List.dropLast_concat, List.getLast?_concat, ← Option.some.inj hb, halpha] at hhidden
      simp at hhidden

theorem Step.command {w : List Char} (h : IsPlain (p ++ ('\\' :: w ++ s)))
    (hbegin : BeginIn p (names read)) (hne : w ≠ []) (hw : ∀ c ∈ w, c.isAlpha = true)
    (hs : ∀ c ∈ s.head?, c.isAlpha = false) :
    Step d p ('\\' :: w) s read ((ofCommand? (String.ofList w)).toList ++ read) := by
  obtain ⟨htake, hdrop⟩ := run_append w s hw hs
  have hscan : Token.scan read ('\\' :: w ++ s) =
      Token.scan ((ofCommand? (String.ofList w)).toList ++ read) s := by
    rw [List.cons_append, scan_command (by rwa [htake]), htake, hdrop]
  have hfresh : IsFresh (p ++ '\\' :: w) s := isFresh_of_isAlpha hs
  rw [← List.append_assoc] at h
  cases hname : ofCommand? (α := α) (String.ofList w) with
  | none =>
    rw [hname] at hscan
    refine .of_misses (by decide) hbegin hscan rfl hfresh (misses_command hd hw) ?_
    refine named_index_frontIndex h (hbegin.append _) fun _ hbase => ?_
    refine hbase.layout _ (mem_layoutCommands hname) ?_
    rw [String.toList_ofList]
    exact List.suffix_append p _
  | some t =>
    rw [hname] at hscan
    have ht := name?_of_ofCommand? hname
    refine .of_misses (by decide) hbegin hscan (names_cons_of_name?_eq_none ht read) hfresh
      (misses_command hd hw) ?_
    rw [Option.toList_some, List.singleton_append, index_of_name?_eq_none ht]

theorem Step.word {c : Char} {w : List Char} {t : Token α}
    (hbegin : BeginIn p (names read)) (hw : ∀ b ∈ c :: w, isLetter b = true)
    (hs : ∀ b ∈ s.head?, isLetter b = false) (ht : ofWord? (c :: w) = some t) :
    Step d p (c :: w) s read (t :: read) := by
  obtain ⟨hletter, hrest⟩ := List.forall_mem_cons.mp hw
  obtain ⟨htake, hdrop⟩ := run_append w s hrest hs
  obtain ⟨hname, hlast⟩ := ofWord?_eq_some ht
  have hscan : Token.scan read (c :: w ++ s) = Token.scan (t :: read) s := by
    rw [List.cons_append, scan_word hletter (by rwa [htake]), hdrop]
  have hfresh : IsFresh (p ++ c :: w) s := isFresh_of_isAlpha fun b hb => isAlpha_eq_false (hs b hb)
  refine .of_misses (ne_underscore_of_isLetter hletter) hbegin hscan (names_cons_of_name?_eq_none hname read)
    hfresh (misses_word hd hw (.inl hlast)) ?_
  rw [index_of_name?_eq_none hname]

/-- A word without a meaning is scanned letter by letter, and the digits behind it as an index. -/
theorem Step.symbols {word ds : List Char} (hne : word ≠ [])
    (h : IsPlain (p ++ (word ++ ds ++ s))) (hfresh : IsFresh p (word ++ ds ++ s))
    (hbegin : BeginIn p (names read)) (hword : ∀ b ∈ word, isLetter b = true)
    (hds : ∀ x ∈ ds, x.isDigit = true) (hs : ∀ x ∈ s.head?, x.isDigit = false)
    (hstop : ds = [] → ∀ x ∈ s.head?, isLetter x = false)
    (hscan : Token.scan read (word ++ ds ++ s) = Token.scan (index ds (letters word ++ read)) s) :
    Step d p (word ++ ds) s read (index ds (letters word ++ read)) := by
  obtain ⟨w, c, rfl⟩ : ∃ w c, word = w ++ [c] := (List.eq_nil_or_concat' word).resolve_left hne
  obtain ⟨hw, hc⟩ : (∀ b ∈ w, isLetter b = true) ∧ isLetter c = true := by
    simpa [or_imp, forall_and] using hword
  have happend : w ++ [c] ++ ds ++ s = w ++ c :: (ds ++ s) := by simp
  constructor
  case scan => exact hscan
  case fresh =>
    cases ds with
    | nil => exact isFresh_of_isAlpha fun x hx => isAlpha_eq_false (hstop rfl x hx)
    | cons y ds =>
      have hapart := endsInNeither_marks (p := p ++ (w ++ [c])) (List.cons_ne_nil y ds) fun x hx =>
        isMark_of_isDigit (hds x hx)
      rw [← List.append_assoc]
      exact fun _ _ _ => hapart.1
  case begins => exact (beginIn_letters hbegin ds).index ds
  case expected =>
    have hfront : frontIndex (w ++ c :: (ds ++ s)) = [] := by
      cases w with
      | nil => exact frontIndex_of_ne (ne_underscore_of_isLetter hc) _
      | cons b w => exact frontIndex_of_ne (ne_underscore_of_isLetter (hw b List.mem_cons_self)) _
    have hbefore : Misses d p w (c :: (ds ++ s)) := misses_word hd hw (.inr ⟨c, rfl, hc⟩)
    have hbehind : Misses d (p ++ w ++ [c]) ds s := misses_of_isConstantLetter hd fun x hx =>
      isConstantLetter_eq_false (isAlpha_eq_false (isMark_of_isDigit (hds x hx)).letter)
    rw [happend] at h hfresh
    rw [Expected, Expected, happend, named_symbols hd (by rwa [List.append_assoc]) hfresh hw hds hs, hfront,
      index_nil, hbefore.mem_findFrom, mem_findFrom_cons, ← List.getLast?_concat (l := p ++ w),
      hbehind.mem_findFrom, List.append_assoc p, List.append_assoc p]
    exact or_assoc.trans or_left_comm

/-- An underscore takes what it takes as an index of the symbol read last. -/
theorem exists_step_index (h : IsPlain (p ++ '_' :: cs)) (hbegin : BeginIn p (names read)) :
    ∃ v, cs = v ++ (splitSubscript cs).2 ∧
      Step d p ('_' :: v) (splitSubscript cs).2 read (index (splitSubscript cs).1 read) := by
  obtain ⟨v, hv, hpiece⟩ := splitSubscript_piece cs
  refine ⟨v, hv, ?_⟩
  have hfront : frontIndex ('_' :: v ++ (splitSubscript cs).2) = (splitSubscript cs).1 := by
    rw [List.cons_append, ← hv]
    rfl
  have hbegin' : BeginIn (p ++ '_' :: v) (names (index (splitSubscript cs).1 read)) :=
    (hbegin.append _).index _
  have hplain : IsPlain (p ++ '_' :: v ++ (splitSubscript cs).2) := by
    rwa [List.append_assoc, List.cons_append, ← hv]
  have hmisses : Misses d p ('_' :: v) (splitSubscript cs).2 := by
    intro q c r hq hfound
    obtain ⟨hc, hbefore, hindex⟩ := (between?_eq_some hd).mp hfound
    cases q with
    | nil =>
      obtain ⟨rfl, -⟩ := List.cons.inj hq
      cases hc
    | cons b q =>
      obtain ⟨rfl, hinside⟩ := List.cons.inj hq
      have hplace := hplain (p ++ '_' :: q) c (r ++ (splitSubscript cs).2) (by rw [hq]; simp)
      rcases hplace.constant hc (exists_head_of_indexChar? hd hindex) with hcommand | halone
      · obtain ⟨b, hb, hkind⟩ := hcommand.getLast?
        obtain ⟨hletter, hslash⟩ := hbefore b hb
        rcases hkind with halpha | hb
        · rw [isLetter_of_isAlpha halpha] at hletter
          cases hletter
        · exact hslash hb
      · exact hpiece.inside p q c r hinside hc halone.outside
  constructor
  case scan => rw [List.cons_append, ← hv, scan_index]
  case fresh => exact hpiece.fresh p
  case begins => exact hbegin'
  case expected =>
    have hindex :
        Named d (names (index (frontIndex (splitSubscript cs).2) (index (splitSubscript cs).1 read))) ↔
          Named d (names (index (splitSubscript cs).1 read)) := by
      by_cases hletter : ∃ x, (splitSubscript cs).1 = [x] ∧ isLetter x = true
      · obtain ⟨x, hx, hletter⟩ := hletter
        rw [hx]
        exact named_index_of_isLetter hd hletter hbegin _
      · exact named_index_frontIndex hplain hbegin' fun hs hbase => hletter (hpiece.base p hs hbase)
    rw [Expected, Expected, hfront, hindex, hmisses.mem_findFrom]

/-! ## Every piece -/

theorem exists_step {c : Char} (h : IsPlain (p ++ c :: cs)) (hfresh : IsFresh p (c :: cs))
    (hbegin : BeginIn p (names read)) :
    ∃ u s, cs = u ++ s ∧ ∃ read', Step d p (c :: u) s read read' := by
  rcases kind_cases c with hblank | hnumeral | rfl | hletter | rfl | hsingle
  · refine ⟨[], cs, rfl, read, .of_marks (t := none) hd h hbegin ?_ (scan_blank hblank read cs) nofun⟩
    simpa using isMark_of_isBlank hblank
  · have hrun := (List.takeWhile_append_dropWhile (p := isNumeralChar) (l := cs)).symm
    refine ⟨_, _, hrun, _,
      .of_marks (t := some (ofDigits (c :: cs.takeWhile isNumeralChar))) hd ?_ hbegin ?_ ?_ ?_⟩
    · rwa [List.cons_append, ← hrun]
    · refine List.forall_mem_cons.mpr ⟨isMark_of_isNumeralChar hnumeral, fun b hb => ?_⟩
      exact isMark_of_isNumeralChar (List.mem_takeWhile_imp hb)
    · rw [List.cons_append, ← hrun]
      exact scan_numeral hnumeral read cs
    · rintro t ⟨⟩
      exact name?_ofDigits _
  · by_cases hname : cs.takeWhile Char.isAlpha = []
    · exact ⟨_, _, (List.take_append_drop 1 cs).symm, read, .escape hd h hbegin hname⟩
    · have hrun := (List.takeWhile_append_dropWhile (p := Char.isAlpha) (l := cs)).symm
      refine ⟨_, _, hrun, _, .command hd ?_ hbegin hname (fun c hc => List.mem_takeWhile_imp hc)
        eq_false_of_mem_head?_dropWhile⟩
      rwa [List.cons_append, ← hrun]
  · have hrun := (List.takeWhile_append_dropWhile (p := isLetter) (l := cs)).symm
    have hword : ∀ b ∈ c :: cs.takeWhile isLetter, isLetter b = true :=
      List.forall_mem_cons.mpr ⟨hletter, fun b hb => List.mem_takeWhile_imp hb⟩
    cases hmeaning : ofWord? (α := α) (c :: cs.takeWhile isLetter) with
    | some t => exact ⟨_, _, hrun, _, .word hd hbegin hword eq_false_of_mem_head?_dropWhile hmeaning⟩
    | none =>
      have hdigits := (List.takeWhile_append_dropWhile (p := Char.isDigit) (l := cs.dropWhile isLetter)).symm
      have hcs : c :: cs = (c :: cs.takeWhile isLetter) ++ (cs.dropWhile isLetter).takeWhile Char.isDigit ++
          (cs.dropWhile isLetter).dropWhile Char.isDigit := by
        rw [List.append_assoc, ← hdigits, List.cons_append, ← hrun]
      have hstop (hnil : (cs.dropWhile isLetter).takeWhile Char.isDigit = []) :
          ∀ x ∈ ((cs.dropWhile isLetter).dropWhile Char.isDigit).head?, isLetter x = false := by
        rw [hnil, List.nil_append] at hdigits
        rw [← hdigits]
        exact eq_false_of_mem_head?_dropWhile
      refine ⟨_, _, (List.cons.inj hcs).2, _, .symbols hd (List.cons_ne_nil c _)
        (hcs ▸ h) (hcs ▸ hfresh) hbegin hword (fun x hx => List.mem_takeWhile_imp hx)
        eq_false_of_mem_head?_dropWhile hstop ?_⟩
      rw [← hcs]
      exact scan_symbols hletter hmeaning read
  · obtain ⟨v, hv, hstep⟩ := exists_step_index hd h hbegin
    exact ⟨v, _, hv, _, hstep⟩
  · have hmark : IsMark c := ⟨hsingle.letter, hsingle.slash, hsingle.underscore⟩
    by_cases hpower : c = '*' ∧ '*' ∈ cs.head?
    · obtain ⟨rfl, hhead⟩ := hpower
      obtain ⟨s, rfl⟩ := List.head?_eq_some_iff.mp hhead
      refine ⟨['*'], s, rfl, _, .of_marks (t := some .caret) hd h hbegin ?_ (scan_power read s) ?_⟩
      · simpa using hmark
      · rintro t ⟨⟩
        rfl
    · refine ⟨[], cs, rfl, _, .of_marks hd h hbegin (by simpa using hmark)
        (scan_single hsingle (fun hc hhead => hpower ⟨hc, hhead⟩) read) fun t ht => name?_of_ofMark? ht⟩

end Placeholder

end Oscillator
