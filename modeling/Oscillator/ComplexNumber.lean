import Oscillator.Arithmetic

/-! # Complex numbers

What characteristic roots are computed with: sums, products, and the square roots of numbers on
the real axis.
-/
namespace Oscillator

structure ComplexNumber (α : Type) where
  re : α
  im : α
  deriving DecidableEq, Repr

namespace ComplexNumber

variable {α : Type} [Arithmetic α]

def add (z w : ComplexNumber α) : ComplexNumber α := ⟨z.re + w.re, z.im + w.im⟩

def sub (z w : ComplexNumber α) : ComplexNumber α := ⟨z.re - w.re, z.im - w.im⟩

def mul (z w : ComplexNumber α) : ComplexNumber α :=
  ⟨z.re * w.re - z.im * w.im, z.re * w.im + z.im * w.re⟩

def neg (z : ComplexNumber α) : ComplexNumber α := ⟨-z.re, -z.im⟩

def subReal (z : ComplexNumber α) (x : α) : ComplexNumber α := ⟨z.re - x, z.im⟩

def scale (z : ComplexNumber α) (x : α) : ComplexNumber α := ⟨z.re * x, z.im * x⟩

/-- The square root on the real axis; a zero imaginary part tells by its sign from which side a
negative number is met. Elsewhere it is undefined. -/
def sqrtOfReal (z : ComplexNumber α) : ComplexNumber α :=
  if z.im == 0 then
    if !Arithmetic.isNegative z.re then ⟨Arithmetic.sqrt z.re, z.im⟩
    else
      let im := Arithmetic.sqrt (-z.re)
      ⟨0, if Arithmetic.isNegative z.im then -im else im⟩
  else ⟨Arithmetic.undefined, Arithmetic.undefined⟩

end ComplexNumber

end Oscillator
