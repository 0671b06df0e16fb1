import TensorChebyshev.Product.Strategy
import TensorChebyshev.Error

/-!
Reciprocals by Newton's iteration `y ← y + y (1 - x y)` in truncated arithmetic. An iterate is
kept together with its residual `1 - x y` and the norm of the residual; a step is taken back
when it does not make the norm smaller, so what is returned is the best iterate computed.
-/

namespace TensorChebyshev

/-- The limits of the iteration and its way to multiply. -/
structure NewtonOptions (R : Type) where
  maxIterations : Nat
  /-- The iteration stops at residuals of at most this norm. -/
  tolerance : R
  strategy : Strategy

namespace NewtonOptions

def standardIterations : Nat := 64

/-- The usual tolerance is `10 ^ -14`. -/
def standard {R : Type} [RealLine R] : NewtonOptions R where
  maxIterations := standardIterations
  tolerance := 1 / RealLine.ofNat 100000000000000
  strategy := .standard

end NewtonOptions

namespace Shape

variable {T R : Type}

/-- An approximate reciprocal with its residual and the norm of that. -/
structure Iterate (s : Shape) (T R : Type) where
  y : s.Coefficients T
  residual : s.Coefficients T
  norm : R

variable [RealLine R] [Scalar T R] [CosineTransform T] {s : Shape}

/-- The iterate with the approximation `y` of the reciprocal of `x`. -/
def Iterate.of (strategy : Strategy) (x y : s.Coefficients T) : Iterate s T R :=
  let residual := s.constant 1 - multiply strategy x y
  ⟨y, residual, Shape.norm residual⟩

def Iterate.next (strategy : Strategy) (x : s.Coefficients T) (it : Iterate s T R) :
    Iterate s T R :=
  Iterate.of strategy x (it.y + multiply strategy it.y it.residual)

/-- At most `steps` Newton steps, as long as the tolerance is not reached and the norm of the
residual gets smaller. -/
def refine (strategy : Strategy) (tolerance : R) (x : s.Coefficients T) :
    (steps : Nat) → Iterate s T R → Iterate s T R
  | 0, it => it
  | steps + 1, it =>
    if RealLine.le it.norm tolerance then it
    else
      let next := it.next strategy x
      if RealLine.isNaN next.norm || RealLine.le it.norm next.norm then it
      else refine strategy tolerance x steps next

/-- The reciprocal. Its residual has a norm below one, or there is none. -/
def inverse (options : NewtonOptions R) (x : s.Coefficients T) :
    Result R (s.Coefficients T) :=
  let c := constantTerm x
  if isZero c then .error .zeroConstantTerm
  else
    let start : s.Coefficients T := s.constant (1 / c)
    if isConstant x then .ok start
    else
      let it := refine options.strategy options.tolerance x options.maxIterations
        (Iterate.of options.strategy x start)
      if RealLine.isNaN it.norm || RealLine.le 1 it.norm then
        .error (.notConverged it.norm)
      else .ok it.y

end Shape

end TensorChebyshev
