/-!
Why a number of variables and a degree are not admitted.
-/

namespace TensorChebyshev

def maxDegree : Nat := 100

/-- The cause for which a basis is refused. -/
inductive IndexError where
  /-- There is no variable. -/
  | noVariables
  /-- The degree exceeds `maxDegree`. -/
  | degreeTooHigh (degree : Nat)
  /-- The basis functions cannot be numbered. -/
  | tooManyFunctions (nvar degree : Nat)
  deriving DecidableEq, Repr

def IndexError.message : IndexError → String
  | .noVariables => "an expansion needs at least one variable"
  | .degreeTooHigh degree =>
    s!"degree {degree} exceeds the maximum admissible degree {maxDegree}"
  | .tooManyFunctions nvar degree =>
    s!"a table for {nvar} variables and degree {degree} has too many entries"

end TensorChebyshev
