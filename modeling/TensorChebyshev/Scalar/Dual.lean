import TensorChebyshev.Scalar.Basic

/-!
Dual numbers `re + eps · ε` with `ε² = 0`: a value together with a derivative.
-/

namespace TensorChebyshev

/-- A value and its derivative part. -/
structure Dual (F : Type) where
  re : F
  eps : F

namespace Dual

section Arithmetic

variable {F : Type} [Arithmetic F]

/-- The product rule. -/
def mul (a b : Dual F) : Dual F := ⟨a.re * b.re, a.re * b.eps + a.eps * b.re⟩

def div (a b : Dual F) : Dual F :=
  let re := a.re / b.re
  ⟨re, (a.eps - re * b.eps) / b.re⟩

instance : Arithmetic (Dual F) where
  zero := ⟨0, 0⟩
  one := ⟨1, 0⟩
  add a b := ⟨a.re + b.re, a.eps + b.eps⟩
  sub a b := ⟨a.re - b.re, a.eps - b.eps⟩
  neg a := ⟨-a.re, -a.eps⟩
  mul := mul
  div := div
  beq a b := a.re == b.re && a.eps == b.eps

end Arithmetic

instance {F R : Type} [RealLine R] [Scalar F R] : Scalar (Dual F) R where
  ofReal x := ⟨Scalar.ofReal x, 0⟩
  magnitude a := Scalar.magnitude a.re + Scalar.magnitude a.eps

end Dual

end TensorChebyshev
