import TensorChebyshev.Scalar.Basic

/-!
Complex numbers over any real scalar type. The product and the quotient are computed from the
parts in the order written here, which floating point can tell.
-/

namespace TensorChebyshev

/-- A complex number by its parts. -/
structure Complex (F : Type) where
  re : F
  im : F

namespace Complex

section Arithmetic

variable {F : Type} [Arithmetic F]

def mul (a b : Complex F) : Complex F :=
  ⟨a.re * b.re - a.im * b.im, a.re * b.im + a.im * b.re⟩

/-- The quotient, over the square of the divisor's modulus. -/
def div (a b : Complex F) : Complex F :=
  let n := b.re * b.re + b.im * b.im
  ⟨(a.re * b.re + a.im * b.im) / n, (a.im * b.re - a.re * b.im) / n⟩

def scale (a : Complex F) (t : F) : Complex F := ⟨a.re * t, a.im * t⟩

/-- A quarter turn clockwise: the product with `-i`, without a multiplication. -/
def turn (a : Complex F) : Complex F := ⟨a.im, -a.re⟩

/-- A quarter turn anticlockwise: the product with `i`, without a multiplication. -/
def turnBack (a : Complex F) : Complex F := ⟨-a.im, a.re⟩

def conj (a : Complex F) : Complex F := ⟨a.re, -a.im⟩

instance : Arithmetic (Complex F) where
  zero := ⟨0, 0⟩
  one := ⟨1, 0⟩
  add a b := ⟨a.re + b.re, a.im + b.im⟩
  sub a b := ⟨a.re - b.re, a.im - b.im⟩
  neg a := ⟨-a.re, -a.im⟩
  mul := mul
  div := div
  beq a b := a.re == b.re && a.im == b.im

section Fused

variable [Fused F]

/-- The number `a t + c` with a real factor, each part rounded once. -/
def scaleAdd (a : Complex F) (t : F) (c : Complex F) : Complex F :=
  ⟨Fused.mulAdd a.re t c.re, Fused.mulAdd a.im t c.im⟩

/-- The product, with one of the two products in each part rounded together with the sum. -/
def fusedMul (a b : Complex F) : Complex F :=
  ⟨Fused.mulAdd a.re b.re (-(a.im * b.im)), Fused.mulAdd a.re b.im (a.im * b.re)⟩

end Fused

end Arithmetic

instance {F R : Type} [Scalar F R] [RealScalar F] : Scalar (Complex F) R where
  ofReal x := ⟨Scalar.ofReal x, 0⟩
  magnitude a := Scalar.magnitude (RealScalar.hypot a.re a.im)

end Complex

end TensorChebyshev
