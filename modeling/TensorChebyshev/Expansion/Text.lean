import TensorChebyshev.Expansion.Basic
import TensorChebyshev.Scalar.Text

/-!
Expansions as text: as a sum of terms, or field by field.
-/

namespace TensorChebyshev.Expansion

variable {T : Type} [Arithmetic T] [ScalarText T]

/-- The Chebyshev factors of a basis function whose exponents start at variable `v`. -/
def factors : (v : Nat) → Tuple → String
  | _, [] => ""
  | v, e :: rest =>
    let others := factors (v + 1) rest
    if e = 0 then others else s!"*T{e}(x{v})" ++ others

/-- The nonzero terms, each a coefficient and the factors of its basis function. -/
def terms (e : Expansion T) : List String :=
  ((e.coeffs.toList.zip e.shape.tuples.toList).filter fun c => !TensorChebyshev.isZero c.1).map
    fun c => ScalarText.text c.1 ++ factors 1 c.2

def display (e : Expansion T) : String :=
  if e.isZero then "0" else String.intercalate " + " e.terms

def debug (e : Expansion T) : String :=
  s!"Expansion \x7b nvar: {e.nvar}, degree: {e.degree}, coeffs: [" ++
    String.intercalate ", " (e.coeffs.toList.map ScalarText.text) ++ "] \x7d"

end TensorChebyshev.Expansion
