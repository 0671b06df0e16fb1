import TensorChebyshev.Cosine.Interpolation
import TensorChebyshev.Error

/-!
Chebyshev series of functions on an interval `[a, b]`, in the variable
`s = (2 t - (a + b)) / (b - a)` that runs over `[-1, 1]`. Ends and samples are scalars, so that
one which carries more than a real keeps it.
-/

namespace TensorChebyshev

variable {T R : Type} [RealLine R] [Scalar T R]

/-- The width `b - a` of an interval, which has to be finite and not zero. -/
def intervalWidth (a b : T) : Result R T :=
  let width := b - a
  let size : R := Scalar.magnitude width
  if isZero size || !RealLine.isFinite size then .error .degenerateInterval else .ok width

/-- The coefficients of the series of `degree` that agrees with `f` at the Gauss–Lobatto nodes
of `[a, b]`. -/
def fit [CosineTransform T] (f : T → T) (a b : T) (degree : Nat) : Result R (List T) := do
  let width ← intervalWidth a b
  if maxDegree < degree then .error (.inadmissible (.degreeTooHigh degree))
  let middle : T := Scalar.half * (a + b)
  let halfWidth : T := Scalar.half * width
  if degree = 0 then return [f middle]
  let values := (RealLine.lobattoNodes degree).map fun x =>
    f (middle + halfWidth * Scalar.ofReal x)
  return (coefficientsOfValues values).toList

end TensorChebyshev
