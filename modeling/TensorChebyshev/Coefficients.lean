import TensorChebyshev.Shape
import TensorChebyshev.Scalar.Basic

/-!
Coefficient vectors of one shape, as far as they do not depend on how basis functions multiply.
-/

namespace TensorChebyshev.Shape

variable {T R : Type}

section Read

variable (s : Shape) [Arithmetic T]

def constantTerm {s : Shape} (v : s.Coefficients T) : T :=
  have := s.size_pos
  v[0]

def allZero {s : Shape} (v : s.Coefficients T) : Bool := v.toList.all isZero

/-- All coefficients but the first are zero. -/
def isConstant {s : Shape} (v : s.Coefficients T) : Bool := v.toList.tail.all isZero

def zeros : s.Coefficients T := Vector.replicate s.size 0

def setConstantTerm {s : Shape} (v : s.Coefficients T) (value : T) : s.Coefficients T :=
  have := s.size_pos
  v.set 0 value

def constant (value : T) : s.Coefficients T := setConstantTerm s.zeros value

def scale {s : Shape} (v : s.Coefficients T) (value : T) : s.Coefficients T :=
  v.map (· * value)

def addConstant {s : Shape} (v : s.Coefficients T) (value : T) : s.Coefficients T :=
  setConstantTerm v (constantTerm v + value)

def subConstant {s : Shape} (v : s.Coefficients T) (value : T) : s.Coefficients T :=
  setConstantTerm v (constantTerm v - value)

end Read

/-- The sum of the magnitudes, a bound for the values on the unit box. -/
def norm [RealLine R] [Scalar T R] {s : Shape} (v : s.Coefficients T) : R :=
  v.foldl (fun acc x => acc + Scalar.magnitude x) 0

end TensorChebyshev.Shape
