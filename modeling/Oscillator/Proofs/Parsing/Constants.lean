import Oscillator.Expr.Placeholder
import Oscillator.Proofs.Expansion.Symbols
import Oscillator.Proofs.Parsing.Conservation
import Oscillator.Proofs.Parsing.Plain

/-! # Constants of integration

A constant with an index among the names that were read, and one that is found in the characters of a text.
In a plain text what is read behind the letter is its index exactly if the search sees it.
-/
namespace Oscillator

namespace Token

open Text

variable {α : Type} {t : Token α} {read : List (Token α)} {cs : List Char}

theorem names_cons_of_name?_eq_none (h : t.name? = none) (ts : List (Token α)) : names (t :: ts) = names ts :=
  List.filterMap_cons_none h

theorem index_nil (read : List (Token α)) : index [] read = read := by
  cases read with
  | nil => rfl
  | cons t read =>
    cases t with
    | symbol name => exact congrArg (fun s => symbol s :: read) (String.append_empty)
    | _ => rfl

theorem index_of_name?_eq_none (h : t.name? = none) (suffix : List Char) (ts : List (Token α)) :
    index suffix (t :: ts) = t :: ts := by
  cases t with
  | symbol name => cases h
  | _ => rfl

/-- An index goes to the symbol read last or is dropped. -/
theorem names_index (suffix : List Char) (read : List (Token α)) :
    names (index suffix read) = names read ∨ ∃ name ns, names read = name :: ns ∧
      names (index suffix read) = (name ++ String.ofList suffix) :: ns := by
  cases read with
  | nil => exact .inl rfl
  | cons t read =>
    cases t with
    | symbol name => exact .inr ⟨name, names read, rfl, rfl⟩
    | _ => exact .inl rfl

/-- The index that an underscore at the front brings. -/
def frontIndex : List Char → List Char
  | '_' :: cs => (splitSubscript cs).1
  | _ => []

theorem frontIndex_of_ne {c : Char} (h : c ≠ '_') (cs : List Char) : frontIndex (c :: cs) = [] := by
  rw [frontIndex]
  rintro cs ⟨⟩
  exact h rfl

theorem frontIndex_eq_nil {cs : List Char} (h : '_' ∉ cs.head?) : frontIndex cs = [] := by
  cases cs with
  | nil => rfl
  | cons c cs => exact frontIndex_of_ne (fun hc => h (by rw [hc]; rfl)) cs

theorem names_letters (word : List Char) (read : List (Token α)) :
    names (letters word ++ read) = (word.map String.singleton).reverse ++ names read := by
  have hletters : letters word = (word.map String.singleton).reverse.map (symbol (α := α)) := by
    rw [letters, List.map_reverse, List.map_map]
    rfl
  rw [names, List.filterMap_append, hletters, List.filterMap_map]
  exact congrArg (· ++ names read) List.filterMap_some

/-- The digits behind a word and the index behind these go to its last letter. -/
theorem names_index_letters (w : List Char) (c : Char) (ds suffix : List Char) (read : List (Token α)) :
    names (index suffix (index ds (letters (w ++ [c]) ++ read))) =
      String.ofList (c :: (ds ++ suffix)) :: names (letters w ++ read) := by
  have hletters : letters (w ++ [c]) ++ read = symbol (String.singleton c) :: (letters w ++ read) := by
    simp [letters]
  have hconcat : String.singleton c ++ String.ofList ds ++ String.ofList suffix =
      String.ofList (c :: (ds ++ suffix)) := String.toList_inj.mp (by simp)
  rw [hletters, ← hconcat]
  rfl

section

/-! Only single letters are scanned as symbols. -/

theorem name?_of_ofMark? {c : Char} (h : ofMark? c = some t) : t.name? = none := by
  unfold ofMark? at h
  split at h
  all_goals cases h
  all_goals rfl

variable [Arithmetic α]

theorem name?_ofDigits (run : List Char) : (ofDigits (α := α) run).name? = none := by
  unfold ofDigits
  split <;> rfl

theorem name?_of_ofCommand? {name : String} (h : ofCommand? name = some t) : t.name? = none := by
  unfold ofCommand? at h
  repeat' split at h
  all_goals cases h
  all_goals rfl

/-- A command that stands for nothing is passed over. -/
theorem mem_layoutCommands {name : String} (h : ofCommand? (α := α) name = none) : name ∈ layoutCommands := by
  unfold ofCommand? at h
  repeat' split at h
  case h_2.isTrue hlayout => exact hlayout
  all_goals cases h

/-- A word with a meaning ends in none of the letters of constants. -/
theorem ofWord?_eq_some {word : List Char} (h : ofWord? word = some t) :
    t.name? = none ∧ ∀ c ∈ word.getLast?, isConstantLetter c = false := by
  unfold ofWord? at h
  split_ifs at h with hpi
  · obtain rfl := Option.some.inj h
    subst hpi
    refine ⟨rfl, ?_⟩
    rintro c ⟨⟩
    rfl
  · obtain ⟨f, hf, rfl⟩ := Option.map_eq_some_iff.mp h
    refine ⟨rfl, ?_⟩
    have hname : f.name = String.ofList word := by
      rw [Func.ofName?] at hf
      have hfound := List.find?_some hf
      exact beq_iff_eq.mp hfound
    have hword : word = f.name.toList := by rw [hname, String.toList_ofList]
    rw [hword]
    cases f
    all_goals
      rintro c ⟨⟩
      rfl

end

end Token

namespace Placeholder

open Text Token

variable {α : Type} {d : Char} {p u s cs : List Char} {read : List (Token α)}

/-! ## The constants of a list of names -/

/-- There is a constant with this index, whatever the case of its letter. -/
def Named (d : Char) (names : List String) : Prop :=
  ∃ c, isConstantLetter c = true ∧ String.ofList [c, d] ∈ names

theorem named_iff {names : List String} :
    Named d names ↔ String.ofList ['C', d] ∈ names ∨ String.ofList ['c', d] ∈ names := by
  simp [Named, isConstantLetter_iff, or_and_right, exists_or]

theorem named_cons {name : String} {names : List String} : Named d (name :: names) ↔
    (∃ c, isConstantLetter c = true ∧ String.ofList [c, d] = name) ∨ Named d names := by
  simp only [Named, List.mem_cons, and_or_left, exists_or]

/-- Each name begins with a character of the text. -/
def BeginIn (p : List Char) (names : List String) : Prop := ∀ name ∈ names, ∃ c ∈ p, c ∈ name.toList.head?

theorem BeginIn.append {names : List String} (h : BeginIn p names) (u : List Char) : BeginIn (p ++ u) names :=
  fun name hname =>
    have ⟨c, hc, hhead⟩ := h name hname
    ⟨c, List.mem_append_left u hc, hhead⟩

theorem BeginIn.index (h : BeginIn p (names read)) (suffix : List Char) :
    BeginIn p (names (index suffix read)) := by
  rcases names_index suffix read with heq | ⟨name, ns, hnames, heq⟩
  · rwa [heq]
  · rw [hnames] at h
    obtain ⟨hname, hns⟩ := List.forall_mem_cons.mp h
    obtain ⟨c, hc, hhead⟩ := hname
    rw [heq]
    refine List.forall_mem_cons.mpr ⟨⟨c, hc, ?_⟩, hns⟩
    rw [String.toList_append]
    exact List.mem_head?_append_of_mem_head? hhead

theorem BeginIn.exists_isConstantLetter {names : List String} (h : BeginIn p names) (hd : Named d names) :
    ∃ c ∈ p, isConstantLetter c = true := by
  obtain ⟨c, hc, hmem⟩ := hd
  obtain ⟨c', hc', hhead⟩ := h _ hmem
  rw [String.toList_ofList] at hhead
  obtain rfl : c = c' := Option.some.inj hhead
  exact ⟨c, hc', hc⟩

/-- An underscore behind anything but a base brings no index to a constant. -/
theorem named_index_frontIndex (h : IsPlain (p ++ s)) (hbegin : BeginIn p (names read))
    (hbase : '_' ∈ s.head? → ¬EndsInBase p) :
    Named d (names (index (frontIndex s) read)) ↔ Named d (names read) := by
  by_cases hs : '_' ∈ s.head?
  · obtain ⟨s, rfl⟩ := List.head?_eq_some_iff.mp hs
    have hnone : ¬∃ c ∈ p, isConstantLetter c = true := fun hc =>
      hbase hs ((h p '_' s rfl).underscore rfl hc)
    exact iff_of_false (fun hd => hnone ((hbegin.index _).exists_isConstantLetter hd))
      fun hd => hnone (hbegin.exists_isConstantLetter hd)
  · rw [frontIndex_eq_nil hs, index_nil]

/-- A single letter is no constant with an index. -/
theorem named_letters (word : List Char) (read : List (Token α)) :
    Named d (names (letters word ++ read)) ↔ Named d (names read) := by
  rw [names_letters]
  refine exists_congr fun c => and_congr_right fun _ => ?_
  rw [List.mem_append, or_iff_right]
  intro hmem
  obtain ⟨b, -, hb⟩ := List.mem_map.mp (List.mem_reverse.mp hmem)
  have hlength := congrArg (·.toList.length) hb
  simp at hlength

theorem beginIn_letters {word : List Char} (hbegin : BeginIn p (names read)) (u : List Char) :
    BeginIn (p ++ (word ++ u)) (names (letters word ++ read)) := by
  intro name hmem
  rw [names_letters, List.mem_append] at hmem
  rcases hmem with hmem | hmem
  · obtain ⟨b, hb, rfl⟩ := List.mem_map.mp (List.mem_reverse.mp hmem)
    exact ⟨b, List.mem_append_right p (List.mem_append_left u hb), by simp⟩
  · exact hbegin.append _ name hmem

theorem isDigit_of_index (hd : d = '1' ∨ d = '2') : d.isDigit = true := by
  rcases hd with rfl | rfl <;> decide

/-- With a letter in the index a symbol is no constant, and no index behind it makes it one. -/
theorem named_index_of_isLetter (hd : d = '1' ∨ d = '2') {x : Char} (hx : isLetter x = true)
    (hbegin : BeginIn p (names read)) (suffix : List Char) :
    Named d (names (index suffix (index [x] read))) ↔ Named d (names (index [x] read)) := by
  cases read with
  | nil => exact Iff.rfl
  | cons t read =>
    cases t with
    | symbol name =>
      obtain ⟨b, -, hb⟩ := hbegin name List.mem_cons_self
      obtain ⟨bs, hname⟩ := List.head?_eq_some_iff.mp hb
      have hnone (after : List Char) :
          ¬∃ c, isConstantLetter c = true ∧ String.ofList [c, d] = name ++ String.ofList (x :: after) := by
        rintro ⟨c, -, heq⟩
        have hlist := congrArg String.toList heq
        rw [String.toList_append, String.toList_ofList, String.toList_ofList, hname] at hlist
        have hmem : x ∈ [d] := (List.cons.inj hlist).2 ▸ List.mem_append_right bs List.mem_cons_self
        rw [List.mem_singleton.mp hmem, isLetter_eq_false_of_isDigit (isDigit_of_index hd)] at hx
        cases hx
      have happend :
          name ++ String.ofList [x] ++ String.ofList suffix = name ++ String.ofList (x :: suffix) :=
        String.toList_inj.mp (by simp)
      change Named d ((name ++ String.ofList [x] ++ String.ofList suffix) :: names read) ↔
        Named d ((name ++ String.ofList [x]) :: names read)
      rw [happend, named_cons, named_cons, or_iff_right (hnone suffix), or_iff_right (hnone [])]
    | _ => exact Iff.rfl

/-! ## The search -/

def ofIndex (d : Char) : String := String.ofList ['C', d]

theorem between?_eq_some (hd : d = '1' ∨ d = '2') {before : Option Char} {c : Char} :
    between? before c s = some (ofIndex d) ↔ isConstantLetter c = true ∧
      (∀ b ∈ before, isLetter b = false ∧ b ≠ '\\') ∧ indexChar? s = some d := by
  have hapart : (before.any fun b => isLetter b || b == '\\') = false ↔
      ∀ b ∈ before, isLetter b = false ∧ b ≠ '\\' := by
    cases before <;> simp
  have hletter : (c != 'C' && c != 'c') = !isConstantLetter c := (Bool.not_or _ _).symm
  rw [between?, hletter, ← hapart]
  split_ifs with hc hbefore
  · exact iff_of_false nofun fun h => absurd hc (by simp [h.1])
  · exact iff_of_false nofun fun h => absurd hbefore (by simp [h.2.1])
  · rw [and_iff_right (by simpa using hc), and_iff_right (by simpa using hbefore)]
    split
    case h_1 hindex =>
      rw [hindex]
      rcases hd with rfl | rfl <;> decide
    case h_2 hindex =>
      rw [hindex]
      rcases hd with rfl | rfl <;> decide
    case h_3 hone htwo =>
      refine iff_of_false nofun fun h => ?_
      rcases hd with rfl | rfl
      · exact hone h
      · exact htwo h

/-- The search finds no constant with this index in a piece of a text. -/
def Misses (d : Char) (p u s : List Char) : Prop :=
  ∀ q c r, u = q ++ c :: r → between? (p ++ q).getLast? c (r ++ s) ≠ some (ofIndex d)

theorem mem_findFrom_cons {before : Option Char} {c : Char} {name : String} :
    name ∈ findFrom before (c :: s) ↔ between? before c s = some name ∨ name ∈ findFrom (some c) s := by
  rw [findFrom]
  cases between? before c s with
  | none => simp
  | some found => simp [Names.mem_insert, eq_comm]

theorem Misses.mem_findFrom (h : Misses d p u s) :
    ofIndex d ∈ findFrom p.getLast? (u ++ s) ↔ ofIndex d ∈ findFrom (p ++ u).getLast? s := by
  induction u generalizing p with
  | nil => rw [List.append_nil, List.nil_append]
  | cons c u ih =>
    have hfirst : between? p.getLast? c (u ++ s) ≠ some (ofIndex d) := by
      simpa using h [] c u rfl
    have hlater : Misses d (p ++ [c]) u s := fun q b r hu => by
      simpa using h (c :: q) b r (by rw [hu, List.cons_append])
    rw [List.cons_append, mem_findFrom_cons, or_iff_right hfirst, ← List.getLast?_concat (l := p),
      ih hlater, List.append_assoc, List.singleton_append]

theorem sorted_findFrom (before : Option Char) (cs : List Char) : (findFrom before cs).Pairwise (· < ·) := by
  induction cs generalizing before with
  | nil => exact List.Pairwise.nil
  | cons c cs ih =>
    rw [findFrom]
    cases between? before c cs with
    | none => exact ih _
    | some name => exact Names.sorted_insert name (ih _)

theorem exists_ofIndex {before : Option Char} {name : String} (h : name ∈ findFrom before cs) :
    ∃ d, (d = '1' ∨ d = '2') ∧ name = ofIndex d := by
  induction cs generalizing before with
  | nil => cases h
  | cons c cs ih =>
    rcases mem_findFrom_cons.mp h with hfirst | hlater
    · unfold between? at hfirst
      repeat' split at hfirst
      all_goals cases hfirst
      · exact ⟨'1', .inl rfl, rfl⟩
      · exact ⟨'2', .inr rfl, rfl⟩
    · exact ih hlater

theorem indexChar?_of_ne {b : Char} (h : b ≠ '_') (s : List Char) : indexChar? (b :: s) = some b := by
  rw [indexChar?]
  · rfl
  all_goals
    rintro s' ⟨⟩
    exact h rfl

theorem ne_underscore_of_isLetter {b : Char} (h : isLetter b = true) : b ≠ '_' := by
  rintro rfl
  cases h

section

variable (hd : d = '1' ∨ d = '2')
include hd

theorem misses_of_isConstantLetter (h : ∀ c ∈ u, isConstantLetter c = false) : Misses d p u s := by
  rintro q c r rfl hfound
  have hc := h c (by simp)
  rw [((between?_eq_some hd).mp hfound).1] at hc
  cases hc

/-- The name of a command is not searched. -/
theorem misses_command (h : ∀ c ∈ u, c.isAlpha = true) : Misses d p ('\\' :: u) s := by
  intro q c r hu hfound
  obtain ⟨hc, hbefore, -⟩ := (between?_eq_some hd).mp hfound
  cases q with
  | nil =>
    obtain ⟨rfl, -⟩ := List.cons.inj hu
    cases hc
  | cons b q =>
    obtain ⟨rfl, rfl⟩ := List.cons.inj hu
    rcases List.eq_nil_or_concat' q with rfl | ⟨q, a, rfl⟩
    · exact (hbefore '\\' (by simp)).2 rfl
    · have hlast : (p ++ '\\' :: (q ++ [a])).getLast? = some a := by
        rw [← List.cons_append, ← List.append_assoc, List.getLast?_concat]
      have ha : isLetter a = true := isLetter_of_isAlpha (h a (by simp))
      rw [(hbefore a hlast).1] at ha
      cases ha

/-- In a word only the last letter can be a constant with an index. -/
theorem misses_word (h : ∀ c ∈ u, isLetter c = true)
    (hlast : (∀ c ∈ u.getLast?, isConstantLetter c = false) ∨ ∃ b ∈ s.head?, isLetter b = true) :
    Misses d p u s := by
  rintro q c r rfl hfound
  obtain ⟨hc, -, hindex⟩ := (between?_eq_some hd).mp hfound
  have hletter : ∀ b s', r ++ s = b :: s' → isLetter b = true → False := fun b s' heq hb => by
    rw [heq, indexChar?_of_ne (ne_underscore_of_isLetter hb)] at hindex
    obtain rfl := Option.some.inj hindex
    rcases hd with rfl | rfl <;> cases hb
  cases r with
  | cons b r => exact hletter b (r ++ s) rfl (h b (by simp))
  | nil =>
    rcases hlast with hlast | ⟨b, hb, hbletter⟩
    · rw [hlast c (by simp)] at hc
      cases hc
    · obtain ⟨s', rfl⟩ := List.head?_eq_some_iff.mp hb
      exact hletter b s' rfl hbletter

end

theorem exists_head_of_indexChar? (hd : d = '1' ∨ d = '2') (h : indexChar? s = some d) :
    ∃ x ∈ s.head?, x = '1' ∨ x = '2' ∨ x = '_' := by
  cases s with
  | nil => cases h
  | cons x s =>
    by_cases hx : x = '_'
    · exact ⟨x, rfl, .inr (.inr hx)⟩
    · rw [indexChar?_of_ne hx] at h
      obtain rfl := Option.some.inj h
      exact ⟨x, rfl, by tauto⟩

/-! ## A constant and its index -/

theorem splitSubscript_eq_singleton (hd : d = '1' ∨ d = '2') (h : BeginsWithShortIndex ('_' :: cs)) :
    (splitSubscript cs).1 = [d] ↔ indexChar? ('_' :: cs) = some d := by
  cases cs with
  | nil => simp [splitSubscript, indexChar?]
  | cons x cs =>
    by_cases hx : x = '{'
    · subst hx
      obtain ⟨hall, hone⟩ := h.group ⟨cs, rfl⟩
      have hgroup : (splitSubscript ('{' :: cs)).1 = cs.takeWhile (· != '}') := List.filter_eq_self.mpr hall
      rw [hgroup, indexChar?]
      constructor
      · intro heq
        cases cs with
        | nil => cases heq
        | cons y cs =>
          rw [List.takeWhile_cons] at heq
          split at heq
          · rw [List.head?_cons, (List.cons.inj heq).1]
          · cases heq
      · exact fun hhead => hone d hhead hd
    · have hindex : indexChar? ('_' :: x :: cs) = some x := by
        rw [indexChar?]
        · rfl
        · rintro s' ⟨⟩
          exact hx rfl
      rw [hindex]
      by_cases hkind : isLetterOrDigit x = true
      · rw [splitSubscript_cons hx, if_pos hkind]
        simp
      · rw [splitSubscript_cons hx, if_neg hkind]
        refine iff_of_false (List.cons_ne_nil d []).symm fun heq => ?_
        obtain rfl := Option.some.inj heq
        rcases hd with rfl | rfl <;> exact hkind (by decide)

/-- What is read behind a constant is its index exactly if the search sees it. -/
theorem index_eq_singleton_iff (hd : d = '1' ∨ d = '2') {c : Char} {ds : List Char}
    (h : IsPlain (p ++ c :: (ds ++ s))) (hc : isConstantLetter c = true) (hcommand : ¬EndsInCommand p)
    (hds : ∀ x ∈ ds, x.isDigit = true) (hs : ∀ x ∈ s.head?, x.isDigit = false) :
    ds ++ frontIndex s = [d] ↔
      (∀ b ∈ p.getLast?, isLetter b = false ∧ b ≠ '\\') ∧ indexChar? (ds ++ s) = some d := by
  have halone (hx : ∃ x ∈ (ds ++ s).head?, x = '1' ∨ x = '2' ∨ x = '_') : StandsAlone p (ds ++ s) :=
    ((h p c _ rfl).constant hc hx).resolve_left hcommand
  have hbefore (ha : StandsAlone p (ds ++ s)) : ∀ b ∈ p.getLast?, isLetter b = false ∧ b ≠ '\\' :=
    fun b hb => ⟨ha.letter b hb, fun hslash => ha.slash (hslash ▸ hb)⟩
  cases ds with
  | cons x ds =>
    have hx := hds x List.mem_cons_self
    have hfront : frontIndex s = [] := by
      refine frontIndex_eq_nil fun hs => ?_
      obtain ⟨s, rfl⟩ := List.head?_eq_some_iff.mp hs
      have hplain := h (p ++ [c] ++ x :: ds) '_' s (by simp)
      have hends := endsInNeither_marks (p := p ++ [c]) (List.cons_ne_nil x ds) fun y hy =>
        isMark_of_isDigit (hds y hy)
      exact hends.2 (hplain.underscore rfl ⟨c, by simp, hc⟩)
    rw [hfront, List.append_nil, List.cons_append, indexChar?_of_ne (isMark_of_isDigit hx).underscore]
    constructor
    · intro heq
      obtain ⟨rfl, rfl⟩ := List.cons.inj heq
      exact ⟨hbefore (halone ⟨x, rfl, by tauto⟩), rfl⟩
    · rintro ⟨-, heq⟩
      obtain rfl := Option.some.inj heq
      have hshort := (halone ⟨x, rfl, by tauto⟩).index.digit ⟨x, rfl, hx⟩
      cases ds with
      | nil => rfl
      | cons y ds =>
        have hy := hshort y rfl
        rw [hds y (by simp)] at hy
        cases hy
  | nil =>
    rw [List.nil_append, List.nil_append]
    by_cases hunder : '_' ∈ s.head?
    · obtain ⟨s, rfl⟩ := List.head?_eq_some_iff.mp hunder
      have ha := halone ⟨'_', rfl, .inr (.inr rfl)⟩
      rw [and_iff_right (hbefore ha)]
      exact splitSubscript_eq_singleton hd ha.index
    · rw [frontIndex_eq_nil hunder]
      refine iff_of_false nofun ?_
      rintro ⟨-, hindex⟩
      cases s with
      | nil => cases hindex
      | cons x s =>
        have hx : x ≠ '_' := fun hx => hunder (by rw [hx]; rfl)
        rw [indexChar?_of_ne hx] at hindex
        obtain rfl := Option.some.inj hindex
        have hdigit := hs x rfl
        rw [isDigit_of_index hd] at hdigit
        cases hdigit

end Placeholder

end Oscillator
