import TensorChebyshev.Expansion.Basic
import TensorChebyshev.Product.Inverse

/-!
Arithmetic of expansions. Two expansions are combined only if they have the same shape, and the
result has that shape; products are truncated to its degree.
-/

namespace TensorChebyshev

inductive Operator where
  | add
  | sub
  | mul
  | div
  deriving DecidableEq, Repr

namespace Expansion

variable {T R : Type} [RealLine R] [Scalar T R]

def add (a b : Expansion T) : Result R (Expansion T) := do
  let c ← b.coeffsIn a.shape
  return ⟨a.shape, a.coeffs + c⟩

def sub (a b : Expansion T) : Result R (Expansion T) := do
  let c ← b.coeffsIn a.shape
  return ⟨a.shape, a.coeffs - c⟩

def neg (e : Expansion T) : Expansion T := e.map (·.map (- ·))

def addScalar (e : Expansion T) (value : T) : Expansion T := e.map (Shape.addConstant · value)

def subScalar (e : Expansion T) (value : T) : Expansion T := e.map (Shape.subConstant · value)

def scale (e : Expansion T) (value : T) : Expansion T := e.map (Shape.scale · value)

/-- Every coefficient divided by a scalar, which must not be zero. -/
def divScalar (e : Expansion T) (value : T) : Result R (Expansion T) :=
  if TensorChebyshev.isZero value then .error .zeroDivisor
  else .ok (e.map (·.map (· / value)))

variable [CosineTransform T]

/-- The truncated product. -/
def multiply (strategy : Strategy) (a b : Expansion T) : Result R (Expansion T) := do
  let c ← b.coeffsIn a.shape
  return ⟨a.shape, Shape.multiply strategy a.coeffs c⟩

def inverse (options : NewtonOptions R) (e : Expansion T) : Result R (Expansion T) := do
  let y ← Shape.inverse options e.coeffs
  return ⟨e.shape, y⟩

/-- The quotient: the product with the reciprocal of the divisor. -/
def divide (a b : Expansion T) : Result R (Expansion T) := do
  let c ← b.coeffsIn a.shape
  let y ← Shape.inverse NewtonOptions.standard c
  return ⟨a.shape, Shape.multiply .standard a.coeffs y⟩

/-- The power with a natural exponent, by repeated squaring of truncated products. -/
def power (e : Expansion T) (n : Nat) : Expansion T := e.map (Shape.power · n)

def combine : Operator → Expansion T → Expansion T → Result R (Expansion T)
  | .add => add
  | .sub => sub
  | .mul => multiply .standard
  | .div => divide

/-- An operation on an expansion and a scalar to its right. -/
def combineScalar (op : Operator) (e : Expansion T) (value : T) : Result R (Expansion T) :=
  match op with
  | .add => .ok (e.addScalar value)
  | .sub => .ok (e.subScalar value)
  | .mul => .ok (e.scale value)
  | .div => e.divScalar value

/-- An operation on a scalar and an expansion to its right. -/
def scalarCombine (op : Operator) (value : T) (e : Expansion T) : Result R (Expansion T) :=
  match op with
  | .add => .ok (e.addScalar value)
  | .sub => .ok (e.neg.addScalar value)
  | .mul => .ok (e.scale value)
  | .div => do return (← e.inverse NewtonOptions.standard).scale value

end Expansion

end TensorChebyshev
