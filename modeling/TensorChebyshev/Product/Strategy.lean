import TensorChebyshev.Coefficients
import TensorChebyshev.Product.Direct
import TensorChebyshev.Product.Grid

/-!
The truncated product of coefficient vectors, by either way of multiplying. A constant factor
only scales the other one, and a grid that is too large is replaced by the product rows.
-/

namespace TensorChebyshev

inductive Strategy where
  /-- Pair by pair through the product rows. -/
  | direct
  /-- By values on a grid. -/
  | transform
  deriving DecidableEq, Repr

namespace Strategy

/-- Pairs are the usual way. -/
def standard : Strategy := .direct

def all : List Strategy := [.direct, .transform]

def name : Strategy → String
  | .direct => "direct"
  | .transform => "transform"

end Strategy

namespace Shape

variable {T R : Type} [RealLine R] [Scalar T R] [CosineTransform T] {s : Shape}

/-- The product of two nonconstant vectors. -/
def multiplyGeneral (strategy : Strategy) (a b : s.Coefficients T) : s.Coefficients T :=
  match strategy with
  | .direct => s.direct a b
  | .transform => if s.HasGrid then s.byValues a b else s.direct a b

def multiply (strategy : Strategy) (a b : s.Coefficients T) : s.Coefficients T :=
  if isConstant b then scale a (constantTerm b)
  else if isConstant a then scale b (constantTerm a)
  else multiplyGeneral strategy a b

/-- The remaining factors of a power: `acc · base ^ n` by repeated squaring, where a truncated
product is formed for each binary digit of `n`. -/
def powerLoop (acc base : s.Coefficients T) (n : Nat) : s.Coefficients T :=
  if n = 0 then acc
  else
    let acc := if n % 2 = 1 then multiply .standard acc base else acc
    if n / 2 = 0 then acc
    else powerLoop acc (multiply .standard base base) (n / 2)
termination_by n
decreasing_by omega

def power (c : s.Coefficients T) (n : Nat) : s.Coefficients T := powerLoop (s.constant 1) c n

end Shape

end TensorChebyshev
