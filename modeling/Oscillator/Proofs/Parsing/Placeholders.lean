import Mathlib.Data.List.Sort
import Oscillator.Proofs.Parsing.Pieces

/-! # Placeholders found and read

In a plain text the search by neighbouring characters finds the constants of integration that the expression
names. In others it may find fewer or more: it knows no words and no subscripts.
-/
namespace Oscillator

namespace Placeholder

open Text Token

variable {α : Type} [Arithmetic α] {d : Char} {p cs : List Char} {read : List (Token α)}

theorem named_scan (hd : d = '1' ∨ d = '2') (h : IsPlain (p ++ cs)) (hfresh : IsFresh p cs)
    (hbegin : BeginIn p (names read)) : Named d (names (Token.scan read cs)) ↔ Expected d p cs read := by
  obtain ⟨n, hn⟩ : ∃ n, cs.length = n := ⟨_, rfl⟩
  induction n using Nat.strong_induction_on generalizing p cs read with
  | _ n ih =>
    cases cs with
    | nil =>
      rw [scan_nil, Expected, frontIndex_eq_nil (by simp), index_nil, findFrom, or_iff_left List.not_mem_nil]
      simp [Named, names]
    | cons c cs =>
      obtain ⟨u, s, rfl, read', hstep⟩ := exists_step hd h hfresh hbegin
      have hlt : s.length < n := by
        rw [← hn, List.length_cons, List.length_append]
        omega
      have hplain : IsPlain ((p ++ c :: u) ++ s) := by rwa [List.append_assoc]
      rw [← List.cons_append, hstep.scan, ih s.length hlt hplain hstep.fresh hstep.begins rfl, hstep.expected]

theorem mem_find_ofIndex {text : String} {e : Expr α} (h : Expr.parse text = .ok e)
    (hplain : IsPlain text.toList) (hd : d = '1' ∨ d = '2') : ofIndex d ∈ find text ↔ Named d e.names := by
  have hfresh : IsFresh [] text.toList := by
    intro _ _ _ hcommand
    cases hcommand.slash
  have hbegin : BeginIn [] (names ([] : List (Token α))) := by
    intro name hname
    cases hname
  have hscan : Named d (names (ofText text)) ↔ Expected d [] text.toList ([] : List (Token α)) :=
    named_scan hd hplain hfresh hbegin
  have hnames : Named d e.names ↔ Named d (names (ofText (α := α) text)) := by
    refine exists_congr fun c => and_congr_right fun _ => ?_
    have hne : String.ofList [c, d] ≠ Expr.eulerName := fun heq => by
      have hlength := congrArg (·.toList.length) heq
      simp [Expr.eulerName] at hlength
    rw [Expr.mem_names_of_parse h hne, mem_names]
  have hnone : ¬Named d (names (index (frontIndex text.toList) ([] : List (Token α)))) := by
    rintro ⟨c, hc, hname⟩
    exact List.not_mem_nil hname
  rw [hnames, hscan, Expected, or_iff_right hnone]
  rfl

/-- In a plain text the search finds the constants of integration that the expression names. -/
theorem find_eq_filter_names {text : String} {e : Expr α} (h : Expr.parse text = .ok e)
    (hplain : IsPlain text.toList) :
    find text = (['1', '2'].filter fun d =>
      String.ofList ['C', d] ∈ e.names ∨ String.ofList ['c', d] ∈ e.names).map fun d =>
        String.ofList ['C', d] := by
  have hsorted : (['1', '2'].map ofIndex).Pairwise (· < ·) := List.pairwise_pair.mpr (by decide)
  refine List.Pairwise.eq_of_mem_iff (r := (· < ·)) (sorted_findFrom _ _)
    (hsorted.sublist (List.filter_sublist.map ofIndex)) fun name => ?_
  simp only [List.mem_map, List.mem_filter, decide_eq_true_eq, ← named_iff]
  constructor
  · intro hname
    obtain ⟨d, hd, rfl⟩ := exists_ofIndex hname
    exact ⟨d, ⟨by simpa using hd, (mem_find_ofIndex h hplain hd).mp hname⟩, rfl⟩
  · rintro ⟨d, ⟨hd, hname⟩, rfl⟩
    exact (mem_find_ofIndex h hplain (by simpa using hd)).mpr hname

/-- A solution as it is rendered, with one constant in each notation. -/
def rendered : String := "\\left(C_\x7b1\x7d + c2 t\\right) e^\x7b-t\x7d"

theorem find_eq_filter_names_rendered :
    Expr.parse (α := Float) rendered = .ok (.binary .mul
        (.binary .add (.symbol "C1") (.binary .mul (.symbol "c2") (.symbol "t")))
        (.call .exp (.negate (.symbol "t")))) ∧
      IsPlain rendered.toList ∧ find rendered = ["C1", "C2"] := by
  have hparse : Expr.parse (α := Float) rendered = .ok (.binary .mul
      (.binary .add (.symbol "C1") (.binary .mul (.symbol "c2") (.symbol "t")))
      (.call .exp (.negate (.symbol "t")))) := by cbv
  have hplain : IsPlain rendered.toList := isPlain_of_forall (by decide)
  exact ⟨hparse, hplain, (find_eq_filter_names hparse hplain).trans (by decide)⟩

/-- Letters side by side are a product, but the search finds no constant inside a word. -/
theorem not_find_eq_filter_names : ¬∀ (text : String) (e : Expr Float), Expr.parse text = .ok e →
    find text = (['1', '2'].filter fun d =>
      String.ofList ['C', d] ∈ e.names ∨ String.ofList ['c', d] ∈ e.names).map fun d =>
        String.ofList ['C', d] := by
  intro h
  have hparse : Expr.parse (α := Float) "xC1" = .ok (.binary .mul (.symbol "x") (.symbol "C1")) := by cbv
  have hnone : find "xC1" = [] := by decide
  have heq := h _ _ hparse
  rw [hnone] at heq
  revert heq
  decide

end Placeholder

end Oscillator
