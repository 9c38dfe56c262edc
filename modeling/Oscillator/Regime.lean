import Oscillator.Arithmetic

/-! # Regimes

The kinds of motion of a mass on a spring, by damping and forcing. Solvers name them by tags in
English or Spanish, and the damping ratio implies one.
-/
namespace Oscillator

inductive Regime where
  | undamped
  | underdamped
  | forced
  | critical
  | overdamped
  deriving DecidableEq, Repr, Inhabited

/-- Whether one list occurs in another without gaps. -/
def occursIn {β : Type} [BEq β] (part : List β) : List β → Bool
  | [] => part.isEmpty
  | b :: bs => part.isPrefixOf (b :: bs) || occursIn part bs

namespace Regime

def tag : Regime → String
  | undamped => "undamped"
  | underdamped => "underdamped"
  | forced => "underdamped_forced"
  | critical => "critically_damped"
  | overdamped => "overdamped"

/-- The regime whose name occurs in a tag, in either case. A tag without any is undamped. Making
ASCII letters small suffices: no small form of another letter fits into one of the names. -/
def ofTag (tag : String) : Regime :=
  let cs := tag.toList.map Char.toLower
  let mentions (name : String) : Bool := occursIn name.toList cs
  if mentions "subamortiguado_forzado" || (mentions "underdamped" && mentions "forced") then forced
  else if mentions "criticamente_amortiguado" || mentions "critically" then critical
  else if mentions "sobreamortiguado" || mentions "overdamped" then overdamped
  else if mentions "subamortiguado" || mentions "underdamped" then underdamped
  else undamped

def isForced : Regime → Bool
  | forced => true
  | _ => false

variable {α : Type} [Arithmetic α]

/-- Damping ratios this close to one are critical, and to zero undamped. -/
def tolerance : α := 1e-9

def ofDampingRatio (zeta : α) (isForced : Bool) : Regime :=
  if Arithmetic.abs (zeta - 1) ≤ tolerance then critical
  else if 1 < zeta then overdamped
  else if isForced then forced
  else if zeta ≤ tolerance then undamped
  else underdamped

end Regime

end Oscillator
