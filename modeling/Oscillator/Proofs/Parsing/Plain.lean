import Mathlib.Data.List.DropRight
import Mathlib.Data.List.Infix
import Oscillator.Proofs.Parsing.Kinds

/-! # Plain writing

When the characters right beside a letter tell whether it is a constant of integration: the constant stands
by itself with a short index, and an underscore after it comes right behind the letter that takes the index.
-/
namespace Oscillator

namespace Text

variable {p q s u w : List Char} {c d : Char}

/-- The letters of constants of integration. -/
def isConstantLetter (c : Char) : Bool := c == 'C' || c == 'c'

/-- The ASCII letters at the end follow a single backslash. -/
structure EndsInCommand (p : List Char) : Prop where
  slash : '\\' ∈ (p.rdropWhile Char.isAlpha).getLast?
  single : '\\' ∉ (p.rdropWhile Char.isAlpha).dropLast.getLast?

/-- At the end stands a letter that takes an index: it is not hidden behind a backslash and not the last one
of a command that is passed over. -/
structure EndsInBase (p : List Char) : Prop where
  letter : ∃ c ∈ p.getLast?, isLetter c = true ∧ (c.isAlpha = true ∨ '\\' ∉ p.dropLast.getLast?)
  layout : ∀ name ∈ Token.layoutCommands, ¬('\\' :: name.toList <:+ p)

/-- No index goes on at the end: there is no underscore, and no group behind one that is still open. -/
structure EndsOutside (p : List Char) : Prop where
  index : '_' ∉ p.getLast?
  group : ¬['_', '{'] <:+: p.rtakeWhile (· != '}')

/-- An index at the front is one digit, one character behind an underscore or a group of letters and digits
that is just one digit if it begins with 1 or 2. -/
structure BeginsWithShortIndex (s : List Char) : Prop where
  digit : (∃ c ∈ s.head?, c.isDigit = true) → ∀ d ∈ (s.drop 1).head?, d.isDigit = false
  group : ['_', '{'] <+: s → (∀ c ∈ (s.drop 2).takeWhile (· != '}'), isLetterOrDigit c = true) ∧
    ∀ d ∈ (s.drop 2).head?, d = '1' ∨ d = '2' → (s.drop 2).takeWhile (· != '}') = [d]

/-- Between `p` and `s` stands a constant by itself. -/
structure StandsAlone (p s : List Char) : Prop where
  letter : ∀ c ∈ p.getLast?, isLetter c = false
  slash : '\\' ∉ p.getLast?
  outside : EndsOutside p
  index : BeginsWithShortIndex s

/-- How a character between two parts of a text is written plainly. -/
structure IsPlainAt (p : List Char) (c : Char) (s : List Char) : Prop where
  underscore : c = '_' → (∃ b ∈ p, isConstantLetter b = true) → EndsInBase p
  constant : isConstantLetter c = true → (∃ d ∈ s.head?, d = '1' ∨ d = '2' ∨ d = '_') →
    EndsInCommand p ∨ StandsAlone p s

def IsPlain (text : List Char) : Prop := ∀ p c s, text = p ++ c :: s → IsPlainAt p c s

/-! Whether a text is plain can be decided place by place. The instances for a quantifier over the members of
a list or an option are named, so that only the characters that occur are looked at and not all there are. -/

instance : DecidablePred EndsInCommand := fun _ =>
  decidable_of_iff (_ ∧ _) ⟨fun h => ⟨h.1, h.2⟩, fun h => ⟨h.1, h.2⟩⟩

instance : DecidablePred EndsInBase := fun _ =>
  @decidable_of_iff _ (_ ∧ _) ⟨fun h => ⟨h.1, h.2⟩, fun h => ⟨h.1, h.2⟩⟩
    (@instDecidableAnd _ _ (Option.decidableExistsMem _) (List.decidableBAll _ _))

instance : DecidablePred EndsOutside := fun _ =>
  decidable_of_iff (_ ∧ _) ⟨fun h => ⟨h.1, h.2⟩, fun h => ⟨h.1, h.2⟩⟩

instance : DecidablePred BeginsWithShortIndex := fun s =>
  have : Decidable (∃ c ∈ s.head?, c.isDigit = true) := Option.decidableExistsMem _
  have : Decidable (∀ d ∈ (s.drop 1).head?, d.isDigit = false) := Option.decidableForallMem _
  have : Decidable (∀ c ∈ (s.drop 2).takeWhile (· != '}'), isLetterOrDigit c = true) :=
    List.decidableBAll _ _
  have : Decidable (∀ d ∈ (s.drop 2).head?, d = '1' ∨ d = '2' →
      (s.drop 2).takeWhile (· != '}') = [d]) := Option.decidableForallMem _
  decidable_of_iff (_ ∧ _) ⟨fun h => ⟨h.1, h.2⟩, fun h => ⟨h.1, h.2⟩⟩

instance (p s : List Char) : Decidable (StandsAlone p s) :=
  have : Decidable (∀ c ∈ p.getLast?, isLetter c = false) := Option.decidableForallMem _
  decidable_of_iff (_ ∧ _ ∧ _ ∧ _) ⟨fun h => ⟨h.1, h.2.1, h.2.2.1, h.2.2.2⟩, fun h => ⟨h.1, h.2, h.3, h.4⟩⟩

instance (p : List Char) (c : Char) (s : List Char) : Decidable (IsPlainAt p c s) :=
  have : Decidable (∃ b ∈ p, isConstantLetter b = true) := List.decidableBEx _ _
  have : Decidable (∃ d ∈ s.head?, d = '1' ∨ d = '2' ∨ d = '_') := Option.decidableExistsMem _
  decidable_of_iff (_ ∧ _) ⟨fun h => ⟨h.1, h.2⟩, fun h => ⟨h.1, h.2⟩⟩

/-- It is enough to look at each place of the text. -/
theorem isPlain_of_forall {text : List Char}
    (h : ∀ i (hi : i < text.length), IsPlainAt (text.take i) text[i] (text.drop (i + 1))) : IsPlain text := by
  rintro p c s rfl
  have hplace := h p.length (by simp)
  rw [List.take_left, List.getElem_append_right (le_refl _), ← List.drop_drop, List.drop_left] at hplace
  simpa using hplace

theorem isConstantLetter_iff : isConstantLetter c = true ↔ c = 'C' ∨ c = 'c' := by
  rw [isConstantLetter, Bool.or_eq_true, beq_iff_eq, beq_iff_eq]

theorem isAlpha_of_isConstantLetter (h : isConstantLetter c = true) : c.isAlpha = true := by
  rcases isConstantLetter_iff.mp h with rfl | rfl <;> decide

theorem isConstantLetter_eq_false (h : c.isAlpha = false) : isConstantLetter c = false := by
  rw [← Bool.not_eq_true]
  intro hc
  rw [isAlpha_of_isConstantLetter hc] at h
  cases h

theorem isAlpha_eq_false (h : isLetter c = false) : c.isAlpha = false := by
  rw [← Bool.not_eq_true]
  intro hc
  rw [isLetter_of_isAlpha hc] at h
  cases h

/-- A character that is part of no name. -/
structure IsMark (c : Char) : Prop where
  letter : isLetter c = false
  slash : c ≠ '\\'
  underscore : c ≠ '_'

theorem isMark_of_isBlank (h : isBlank c = true) : IsMark c := by
  refine ⟨isLetter_eq_false_of_isBlank h, ?_, ?_⟩
  all_goals
    rintro rfl
    cases h

theorem isMark_of_isNumeralChar (h : Token.isNumeralChar c = true) : IsMark c := by
  refine ⟨?_, ?_, ?_⟩
  · rw [← Bool.not_eq_true]
    exact fun hletter => Bool.false_ne_true ((isNumeralChar_eq_false_of_isLetter hletter).symm.trans h)
  all_goals
    rintro rfl
    cases h

theorem isMark_of_isDigit (h : c.isDigit = true) : IsMark c :=
  isMark_of_isNumeralChar (by rw [Token.isNumeralChar, h, Bool.true_or])

theorem endsInCommand_concat (h : c.isAlpha = true) : EndsInCommand (p ++ [c]) ↔ EndsInCommand p := by
  have hdrop : (p ++ [c]).rdropWhile Char.isAlpha = p.rdropWhile Char.isAlpha := by
    rw [List.rdropWhile_concat, if_pos h]
  exact ⟨fun ⟨hs, hn⟩ => ⟨hdrop ▸ hs, hdrop ▸ hn⟩, fun ⟨hs, hn⟩ => ⟨hdrop.symm ▸ hs, hdrop.symm ▸ hn⟩⟩

/-- A command begins with a backslash that no other one hides. -/
theorem endsInCommand_concat_of_not (h : c.isAlpha = false) :
    EndsInCommand (p ++ [c]) ↔ c = '\\' ∧ '\\' ∉ p.getLast? := by
  have hdrop : (p ++ [c]).rdropWhile Char.isAlpha = p ++ [c] :=
    List.rdropWhile_concat_neg _ _ _ (by simp [h])
  constructor
  · rintro ⟨hs, hn⟩
    rw [hdrop] at hs hn
    simpa [and_comm, eq_comm] using And.intro hs hn
  · rintro ⟨rfl, hn⟩
    exact ⟨by simp [hdrop], by simpa [hdrop] using hn⟩

/-- A run ends where a character is not of its kind. -/
theorem eq_false_of_mem_head?_dropWhile {f : Char → Bool} :
    ∀ c ∈ (s.dropWhile f).head?, f c = false := by
  intro c hc
  have hhead := List.head?_dropWhile_not f s
  rwa [hc] at hhead

theorem EndsInCommand.getLast? (h : EndsInCommand p) : ∃ c ∈ p.getLast?, c.isAlpha = true ∨ c = '\\' := by
  rcases List.eq_nil_or_concat' p with rfl | ⟨q, c, rfl⟩
  · cases h.slash
  · refine ⟨c, List.getLast?_concat, ?_⟩
    cases hc : c.isAlpha with
    | true => exact .inl rfl
    | false => exact .inr ((endsInCommand_concat_of_not hc).mp h).1

/-- Behind characters that are no letters and no backslashes there is neither a command nor a base. -/
theorem endsInNeither (hne : u ≠ []) (h : ∀ c ∈ u, isLetter c = false ∧ c ≠ '\\') :
    ¬EndsInCommand (p ++ u) ∧ ¬EndsInBase (p ++ u) := by
  have hlast : (p ++ u).getLast? = u.getLast? := List.getLast?_append_of_ne_nil p hne
  constructor
  · intro hcommand
    obtain ⟨c, hc, hkind⟩ := hcommand.getLast?
    obtain ⟨hletter, hslash⟩ := h c (List.mem_of_getLast? (hlast ▸ hc))
    rcases hkind with halpha | rfl
    · rw [isLetter_of_isAlpha halpha] at hletter
      cases hletter
    · exact hslash rfl
  · intro hbase
    obtain ⟨c, hc, hletter, -⟩ := hbase.letter
    rw [(h c (List.mem_of_getLast? (hlast ▸ hc))).1] at hletter
    cases hletter

theorem endsInNeither_marks (hne : u ≠ []) (h : ∀ c ∈ u, IsMark c) :
    ¬EndsInCommand (p ++ u) ∧ ¬EndsInBase (p ++ u) :=
  endsInNeither hne fun c hc => ⟨(h c hc).letter, (h c hc).slash⟩

theorem endsInNeither_underscore (p : List Char) : ¬EndsInCommand (p ++ ['_']) ∧ ¬EndsInBase (p ++ ['_']) :=
  endsInNeither (List.cons_ne_nil '_' []) (List.forall_mem_singleton.mpr ⟨rfl, by decide⟩)

end Text

end Oscillator
