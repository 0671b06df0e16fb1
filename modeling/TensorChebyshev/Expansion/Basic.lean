import TensorChebyshev.Coefficients
import TensorChebyshev.Error

/-!
Truncated Chebyshev expansions: a shape and one coefficient for each of its basis functions.
Here are the ways to make one, to read it and to change single coefficients.
-/

namespace TensorChebyshev

/-- The sum of the basis functions of a shape with the given coefficients. -/
structure Expansion (T : Type) where
  shape : Shape
  coeffs : shape.Coefficients T

namespace Expansion

variable {T R : Type}

/-- The name of the polynomials in one variable. -/
def basisName : String := "Chebyshev"

/-- A shape, with the refusal of one as the cause of an error. -/
def shapeFor (nvar degree : Nat) : Result R Shape :=
  (Shape.build nvar degree).mapError .inadmissible

section Read

variable (e : Expansion T)

def nvar : Nat := e.shape.nvar

def degree : Nat := e.shape.degree

def size : Nat := e.shape.size

def coefficient? (i : Nat) : Option T := e.coeffs[i]?

def coefficientOf? (t : Tuple) : Option T := (e.shape.rank? t).bind e.coefficient?

/-- The coefficients read in shape `s`, if that is the shape of the expansion. -/
def coeffsIn (s : Shape) (e : Expansion T) : Result R (s.Coefficients T) :=
  if h : s.Alike e.shape then .ok (e.coeffs.cast h.size_eq.symm)
  else .error (.shapesDiffer s.nvar s.degree e.nvar e.degree)

/-- The same shape with coefficients made from the present ones. -/
def map (f : e.shape.Coefficients T → e.shape.Coefficients T) : Expansion T :=
  ⟨e.shape, f e.coeffs⟩

variable [Arithmetic T]

def constantTerm : T := Shape.constantTerm e.coeffs

def isZero : Bool := Shape.allZero e.coeffs

/-- All coefficients of nonconstant basis functions are zero. -/
def isConstant : Bool := Shape.isConstant e.coeffs

protected def beq (a b : Expansion T) : Bool :=
  decide (a.shape.Alike b.shape) && a.coeffs.toArray == b.coeffs.toArray

instance : BEq (Expansion T) := ⟨Expansion.beq⟩

end Read

/-- The sum of the magnitudes of the coefficients. -/
def norm [RealLine R] [Scalar T R] (e : Expansion T) : R := Shape.norm e.coeffs

section Make

variable [Arithmetic T]

def zeroIn (s : Shape) : Expansion T := ⟨s, s.zeros⟩

def constantIn (s : Shape) (value : T) : Expansion T := ⟨s, s.constant value⟩

def zero (nvar degree : Nat) : Result R (Expansion T) := do
  return zeroIn (← shapeFor nvar degree)

def constant (nvar degree : Nat) (value : T) : Result R (Expansion T) := do
  return constantIn (← shapeFor nvar degree) value

/-- An expansion with another coefficient at a position. -/
def setCoefficient (e : Expansion T) (i : Nat) (value : T) : Result R (Expansion T) :=
  if h : i < e.shape.size then .ok ⟨e.shape, e.coeffs.set i value h⟩
  else .error (.noBasisFunction i e.size)

/-- The coefficients of shape `s` in a list. -/
def ofCoefficientsIn (s : Shape) (cs : Array T) : Result R (Expansion T) :=
  if h : cs.size = s.size then .ok ⟨s, ⟨cs, h⟩⟩
  else .error (.coefficientCount s.size cs.size)

def basis (nvar degree i : Nat) : Result R (Expansion T) := do
  setCoefficient (← zero nvar degree) i 1

/-- The coordinate function of a variable, counted from zero. -/
def coordinate (nvar degree v : Nat) : Result R (Expansion T) :=
  if nvar ≤ v then .error (.noBasisFunction v nvar) else basis nvar degree (1 + v)

def ofCoefficients (nvar degree : Nat) (cs : Array T) : Result R (Expansion T) := do
  ofCoefficientsIn (← shapeFor nvar degree) cs

def zerosLike (e : Expansion T) : Expansion T := zeroIn e.shape

def constantLike (e : Expansion T) (value : T) : Expansion T := constantIn e.shape value

def setCoefficients (e : Expansion T) (cs : Array T) : Result R (Expansion T) :=
  ofCoefficientsIn e.shape cs

end Make

end Expansion

end TensorChebyshev
