import TensorChebyshev.Expansion.Basic
import TensorChebyshev.Product.Strategy
import TensorChebyshev.Series.Clenshaw

/-!
Values of an expansion at points, and substitution of expansions for its variables. Both sum the
coefficients by the backward recurrence, over the last variable first.
-/

namespace TensorChebyshev.Expansion

variable {T R : Type} [RealLine R] [Scalar T R]

/-- The value of an expansion in one variable. -/
def evaluateScalar (e : Expansion T) (x : T) : Result R T :=
  if e.nvar = 1 then .ok (clenshaw (· * x) e.coeffs.toList)
  else .error (.coordinateCount e.nvar 1)

/-- The value at a point with a coordinate for each variable. -/
def evaluate (e : Expansion T) (point : Array T) : Result R T :=
  if point.size = e.nvar then
    (e.shape.sum (fun v b => b * point.getD v 0) e.coeffs.toList).mapError .inadmissible
  else .error (.coordinateCount e.nvar point.size)

variable [CosineTransform T]

/-- The expansion with `substitutions` in place of its variables. They have one shape, to whose
degree all products on the way are truncated. -/
def compose (strategy : Strategy) (e : Expansion T) (substitutions : List (Expansion T)) :
    Result R (Expansion T) :=
  if substitutions.length = e.nvar then
    match substitutions with
    | [] => .error (.substitutionCount e.nvar 0)
    | target :: others => do
      let s := target.shape
      let rest ← others.mapM (coeffsIn s)
      let factors := (target.coeffs :: rest).toArray
      let value ← (e.shape.sum
          (fun v b => Shape.multiply strategy b (factors.getD v s.zeros))
          (e.coeffs.toList.map s.constant)).mapError .inadmissible
      return ⟨s, value⟩
  else .error (.substitutionCount e.nvar substitutions.length)

end TensorChebyshev.Expansion
