import TensorChebyshev.Expansion.Substitute

/-!
# Intervals and samples

Fitting and substituting into a series both begin with the width of the
interval, and what they need of it is decided there, by its magnitude alone.
After that a fit depends on its function through the samples at the nodes.
-/

namespace TensorChebyshev

variable {T R : Type} [RealLine R] [Scalar T R] {a b : T}

/-! ## The width -/

theorem intervalWidth_eq_ok_iff {width : T} :
    intervalWidth a b = .ok width ↔ b - a = width ∧
      isZero (Scalar.magnitude (b - a)) = false ∧
      RealLine.isFinite (Scalar.magnitude (b - a)) = true := by
  rw [intervalWidth]
  cases isZero (Scalar.magnitude (b - a)) <;>
    cases RealLine.isFinite (Scalar.magnitude (b - a)) <;> simp

/-- What succeeds after the width is taken has a width to work with. -/
theorem intervalWidth_of_bind {A : Type} {next : T → Result R A} {value : A}
    (h : intervalWidth a b >>= next = .ok value) : intervalWidth a b = .ok (b - a) := by
  cases hwidth : intervalWidth a b with
  | error cause =>
      rw [hwidth] at h
      cases h
  | ok width => rw [(intervalWidth_eq_ok_iff.mp hwidth).1]

/-! ## The samples -/

/-- The arguments at which a fit takes its function. -/
def samplePoints (a b : T) (degree : Nat) : Vector T (degree + 1) :=
  (RealLine.lobattoNodes degree).map fun x =>
    Scalar.half * (a + b) + Scalar.half * (b - a) * Scalar.ofReal x

theorem fit_eq [CosineTransform T] (f : T → T) {width : T} (degree : Nat)
    (hwidth : intervalWidth a b = .ok width) :
    fit f a b degree = if maxDegree < degree then .error (.inadmissible (.degreeTooHigh degree))
      else .ok (if degree = 0 then [f (Scalar.half * (a + b))]
        else (coefficientsOfValues ((samplePoints a b degree).map f)).toList) := by
  obtain ⟨rfl, _⟩ := intervalWidth_eq_ok_iff.mp hwidth
  rw [fit, hwidth]
  show (if maxDegree < degree then _ else _ : Result R _) = _
  by_cases hhigh : maxDegree < degree
  · rw [if_pos hhigh, if_pos hhigh]
    rfl
  · rw [if_neg hhigh, if_neg hhigh, samplePoints, Vector.map_map]
    by_cases hzero : degree = 0
    · rw [if_pos hzero, if_pos hzero]
      rfl
    · rw [if_neg hzero, if_neg hzero]
      rfl

/-- A fit of positive degree succeeds with the coefficients of its samples. -/
theorem fit_of_pos [CosineTransform T] (f : T → T) {width : T} {degree : Nat}
    (hwidth : intervalWidth a b = .ok width) (hpos : 0 < degree) (hdegree : degree ≤ maxDegree) :
    fit f a b degree
      = .ok (coefficientsOfValues ((samplePoints a b degree).map f)).toList := by
  rw [fit_eq f degree hwidth, if_neg (Nat.not_lt.mpr hdegree),
    if_neg (Nat.ne_of_gt hpos)]

end TensorChebyshev
