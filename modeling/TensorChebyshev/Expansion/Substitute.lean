import TensorChebyshev.Expansion.Arithmetic
import TensorChebyshev.Series.Clenshaw
import TensorChebyshev.Series.Fit

/-!
Expansions as arguments of functions of one variable. An expansion is mapped from an interval
onto `[-1, 1]` and substituted into a Chebyshev series there; for any function on the range of
the expansion such a series is found by fitting.
-/

namespace TensorChebyshev.Expansion

variable {T R : Type} [RealLine R] [Scalar T R]

/-- The expansion `(2 e - (a + b)) / (b - a)`, where `width` is `b - a`. -/
def toUnitInterval (e : Expansion T) (a b width : T) : Expansion T :=
  (e.scale (Scalar.two / width)).subScalar ((a + b) / width)

variable [CosineTransform T]

/-- The Chebyshev polynomials of `s`, from the two last ones on: each is `2 s` times the one
before less the one before that. -/
def chebyshevFrom {s : Shape} (twice : s.Coefficients T) :
    (count : Nat) → s.Coefficients T → s.Coefficients T → List (s.Coefficients T)
  | 0, _, _ => []
  | count + 1, before, last =>
    let next := Shape.multiply .standard twice last - before
    next :: chebyshevFrom twice count last next

/-- The polynomials `T_0, …, T_degree` of `e` mapped from `[a, b]` onto `[-1, 1]`. -/
def chebyshevBasis (e : Expansion T) (a b : T) : Result R (List (Expansion T)) := do
  let width ← intervalWidth a b
  let s := e.toUnitInterval a b width
  let one := s.shape.constant 1
  let higher := chebyshevFrom (Shape.scale s.coeffs Scalar.two) (e.degree - 1) one s.coeffs
  let polynomials := one :: (if 1 ≤ e.degree then s.coeffs :: higher else [])
  return polynomials.map fun c => ⟨s.shape, c⟩

/-- The series with the given coefficients on `[a, b]`, at this expansion. -/
def composeSeries (e : Expansion T) (cs : List T) (a b : T) : Result R (Expansion T) := do
  let width ← intervalWidth a b
  let s := e.toUnitInterval a b width
  return ⟨s.shape, clenshaw (Shape.multiply .standard · s.coeffs) (cs.map s.shape.constant)⟩

variable [RealScalar T]

/-- An interval that contains the values on the unit box, since `|T_k| ≤ 1` there. -/
def range (e : Expansion T) : T × T :=
  let spread := e.coeffs.toList.tail.foldl (fun acc c => acc + RealScalar.abs c) 0
  (e.constantTerm - spread, e.constantTerm + spread)

/-- A function of this expansion, fitted over its range at its own degree. -/
def apply (e : Expansion T) (f : T → T) : Result R (Expansion T) := do
  let (lo, hi) := e.range
  if lo == hi then return e.constantLike (f lo)
  e.composeSeries (← fit f lo hi e.degree) lo hi

end TensorChebyshev.Expansion
