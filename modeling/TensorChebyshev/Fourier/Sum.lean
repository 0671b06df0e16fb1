import TensorChebyshev.Scalar.Complex

/-!
The discrete Fourier transform as its defining sum, and methods to compute it: a method is exact
if it agrees with the sum.
-/

namespace TensorChebyshev

variable {F R : Type} [RealLine R] [Scalar F R]

/-- The root of unity `exp (-2πi t / n)`. -/
def unitRoot (n t : Nat) : Complex F :=
  ⟨Scalar.ofReal (RealLine.cosTurn t n), Scalar.ofReal (-RealLine.sinTurn t n)⟩

/-- Entry `k` of the transform: the sum of `x_j exp (-2πi j k / n)`. -/
def fourierAt {n : Nat} (x : Vector (Complex F) n) (k : Nat) : Complex F :=
  Fin.foldl n (fun acc j => acc + x[j] * unitRoot n (j.val * k % n)) 0

def fourier {n : Nat} (x : Vector (Complex F) n) : Vector (Complex F) n :=
  Vector.ofFn fun k => fourierAt x k

/-- A way to compute Fourier transforms of every length. -/
abbrev FourierMethod (F : Type) : Type :=
  (n : Nat) → Vector (Complex F) n → Vector (Complex F) n

namespace FourierMethod

/-- The method without rounding, equal to the defining sum. -/
def Exact (method : FourierMethod F) : Prop :=
  ∀ (n : Nat) (x : Vector (Complex F) n), method n x = fourier x

def bySums : FourierMethod F := fun _ x => fourier x

theorem bySums_exact : (bySums : FourierMethod F).Exact := fun _ _ => rfl

end FourierMethod

end TensorChebyshev
