/-! # Sets of names

Names without repetition, in the order of their code points.
-/
namespace Oscillator

abbrev Names := List String

namespace Names

def insert (name : String) : Names → Names
  | [] => [name]
  | n :: ns =>
    if name < n then name :: n :: ns
    else if name = n then n :: ns
    else n :: insert name ns

def union (left right : Names) : Names := right.foldl (fun names n => insert n names) left

theorem mem_insert {a name : String} {ns : Names} : a ∈ insert name ns ↔ a = name ∨ a ∈ ns := by
  induction ns with
  | nil => simp [insert]
  | cons n ns ih => grind [insert]

theorem mem_union {a : String} {left right : Names} :
    a ∈ union left right ↔ a ∈ left ∨ a ∈ right := by
  induction right generalizing left with
  | nil => simp [union]
  | cons n ns ih =>
    rw [union, List.foldl_cons, ← union, ih, mem_insert]
    grind

end Names

end Oscillator
