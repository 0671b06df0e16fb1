import TensorChebyshev.Index.Error
import TensorChebyshev.Decimal.Notation

/-!
Why an operation on expansions is refused.
-/

namespace TensorChebyshev

/-- The cause for which an operation is refused. Residuals are reals of the line `R`. -/
inductive Error (R : Type) where
  /-- There is no basis for the wanted number of variables and degree. -/
  | inadmissible (cause : IndexError)
  /-- Two operands differ in their number of variables or in their degree. -/
  | shapesDiffer (leftNvar leftDegree rightNvar rightDegree : Nat)
  /-- There is no basis function, or no variable, with this number. -/
  | noBasisFunction (number size : Nat)
  /-- A list of coefficients has the wrong length. -/
  | coefficientCount (expected got : Nat)
  /-- A point has the wrong number of coordinates. -/
  | coordinateCount (expected got : Nat)
  /-- The divisor is the zero scalar. -/
  | zeroDivisor
  /-- The constant coefficient of the divisor is zero. -/
  | zeroConstantTerm
  /-- The residual of the inverse never dropped below one; the best one is given. -/
  | notConverged (residual : R)
  /-- There are too few or too many substitutions. -/
  | substitutionCount (expected got : Nat)
  /-- The ends of an interval coincide or are not finite. -/
  | degenerateInterval

/-- What an operation answers. -/
abbrev Result (R α : Type) : Type := Except (Error R) α

/-- Reals that can be written inside a message. -/
class RealText (R : Type) where
  text : R → String

instance : RealText Float := ⟨fun x => (Numeral.ofFloat x).scientific⟩

def Error.message {R : Type} [RealText R] : Error R → String
  | .inadmissible cause => cause.message
  | .shapesDiffer leftNvar leftDegree rightNvar rightDegree =>
    s!"shape mismatch: {leftNvar} variables / degree {leftDegree} vs " ++
      s!"{rightNvar} variables / degree {rightDegree}"
  | .noBasisFunction number size =>
    s!"basis index {number} is out of range for {size} coefficients"
  | .coefficientCount expected got => s!"expected {expected} coefficients, got {got}"
  | .coordinateCount expected got =>
    s!"evaluation point has {got} coordinates, expected {expected}"
  | .zeroDivisor => "division by a zero scalar"
  | .zeroConstantTerm => "cannot invert an expansion whose constant coefficient is zero"
  | .notConverged residual =>
    "inverse iteration did not converge (residual " ++ RealText.text residual ++ ")"
  | .substitutionCount expected got =>
    s!"composition expects {expected} substitutions, got {got}"
  | .degenerateInterval => "interval endpoints must be finite and distinct"

end TensorChebyshev
