import Mathlib
import TensorChebyshev.Proofs.Inverse.Refinement

/-!
# Reciprocals and quotients

What an expansion gets back when its reciprocal is asked for: a refusal if the
constant term is zero, and otherwise the best iterate of the refinement, or the
norm of its residual if that is not below one. A quotient is the product with
the reciprocal, and with a constant divisor the division of the coefficients.
-/

namespace TensorChebyshev

variable {T : Type} [Scalar T ℝ] [CosineTransform T]

/-- An iterate at which the refinement ends, and the best of those it computed. -/
def Shape.BestIterate {s : Shape} (options : NewtonOptions ℝ) (x y : s.Coefficients T) : Prop :=
  ∃ k, y = newton options.strategy x k ∧ EndsAt options x k ∧
    ∀ i, Computed options x k i →
      residualNorm options.strategy x y ≤ normAt options.strategy x i

namespace Expansion

theorem inverse_eq {T R : Type} [RealLine R] [Scalar T R] [CosineTransform T]
    (options : NewtonOptions R) (s : Shape) (x : s.Coefficients T) :
    inverse options ⟨s, x⟩ = (Shape.inverse options x).map fun y => ⟨s, y⟩ := by
  rw [inverse]
  cases Shape.inverse options x <;> rfl

theorem divide_eq (s : Shape) (a b : s.Coefficients T) :
    divide ⟨s, a⟩ ⟨s, b⟩ = (Shape.inverse NewtonOptions.standard b).map fun y =>
      ⟨s, Shape.multiply .standard a y⟩ := by
  rw [divide, coeffsIn_self]
  show (Shape.inverse NewtonOptions.standard b >>= _) = _
  cases Shape.inverse NewtonOptions.standard b <;> rfl

variable [ValuedField T]

attribute [local instance] ExactRing.toCommRing

theorem inverse_of_constantTerm_zero (options : NewtonOptions ℝ) (x : Expansion T)
    (h : x.constantTerm = 0) : x.inverse options = .error .zeroConstantTerm := by
  have hzero : TensorChebyshev.isZero (Shape.constantTerm x.coeffs) = true :=
    (ExactRing.isZero_iff _).mpr h
  rw [inverse_eq options x.shape x.coeffs, Shape.inverse]
  simp only [if_pos hzero]
  rfl

/-- The reciprocal in terms of the run: which iterate it is and how it is judged. -/
theorem inverse_eq_bestIterate (options : NewtonOptions ℝ) (x : Expansion T)
    (h : x.constantTerm ≠ 0) :
    ∃ v, Shape.BestIterate options x.coeffs v ∧ x.inverse options
      = if Shape.residualNorm options.strategy x.coeffs v < 1 then .ok ⟨x.shape, v⟩
        else .error (.notConverged (Shape.residualNorm options.strategy x.coeffs v)) := by
  obtain ⟨k, hend, heq⟩ := Shape.inverse_eq_newton options h
  refine ⟨_, ⟨k, rfl, hend, fun i hi => hend.le_of_computed hi⟩, ?_⟩
  rw [inverse_eq options x.shape x.coeffs, heq, Shape.normAt]
  split <;> rfl

theorem divide_constant (s : Shape) (a b : s.Coefficients T) (hb : Shape.isConstant b = true)
    (hc : Shape.constantTerm b ≠ 0) :
    divide ⟨s, a⟩ ⟨s, b⟩ = divScalar ⟨s, a⟩ (Shape.constantTerm b) := by
  have hzero : ¬ TensorChebyshev.isZero (Shape.constantTerm b) = true := fun h =>
    hc ((ExactRing.isZero_iff _).mp h)
  have hquotient : Shape.scale a (1 / Shape.constantTerm b)
      = a.map (· / Shape.constantTerm b) := by
    refine Vector.ext fun i hi => ?_
    rw [Shape.scale, Vector.getElem_map, Vector.getElem_map,
      ValuedField.div_eq_mul_one_div a[i] hc]
  rw [divide_eq, Shape.inverse, divScalar, if_neg hzero]
  simp only [if_neg hzero, if_pos hb]
  show Except.ok (⟨s, Shape.multiply .standard a (s.constant (1 / Shape.constantTerm b))⟩ :
    Expansion T) = _
  rw [Shape.multiply_constant, hquotient]
  rfl

/-- **What inversion hands back is certified.** The reciprocal is refused for a
missing constant term exactly when that is zero. A reciprocal that is returned has
the shape of the expansion, a residual of norm below one that is no larger than
that of the first iterate, and is the best iterate of the refinement; and if there
is none, the norm reported is at least one and that of the best iterate. The
quotient of two expansions of one shape is the product of the first with the
reciprocal of the second, with the same refusals, and for a constant divisor other
than zero it is the division by that scalar. -/
theorem inverse_certified (options : NewtonOptions ℝ) (x : Expansion T) :
    (x.inverse options = .error .zeroConstantTerm ↔ x.constantTerm = 0) ∧
    (∀ y, x.inverse options = .ok y → ∃ v, y = ⟨x.shape, v⟩ ∧
      Shape.residualNorm options.strategy x.coeffs v < 1 ∧
      Shape.residualNorm options.strategy x.coeffs v
        ≤ Shape.residualNorm options.strategy x.coeffs (x.shape.constant (1 / x.constantTerm)) ∧
      Shape.BestIterate options x.coeffs v) ∧
    (∀ cause, x.inverse options = .error cause → x.constantTerm ≠ 0 →
      ∃ v, cause = .notConverged (Shape.residualNorm options.strategy x.coeffs v) ∧
        1 ≤ Shape.residualNorm options.strategy x.coeffs v ∧
        Shape.BestIterate options x.coeffs v) ∧
    (∀ a : Expansion T, a.shape.Alike x.shape →
      a.divide x = (x.inverse NewtonOptions.standard >>= fun y => multiply .standard a y) ∧
      (∀ cause, a.divide x = .error cause ↔ x.inverse NewtonOptions.standard = .error cause) ∧
      (x.isConstant = true → x.constantTerm ≠ 0 → a.divide x = a.divScalar x.constantTerm)) := by
  refine ⟨⟨fun h => ?_, x.inverse_of_constantTerm_zero options⟩, fun y hy => ?_,
    fun cause hcause hc => ?_, fun a halike => ?_⟩
  -- another refusal would be for a residual that is too large
  · by_contra hc
    obtain ⟨v, _, heq⟩ := x.inverse_eq_bestIterate options hc
    rw [h] at heq
    split at heq <;> cases heq
  · have hc : x.constantTerm ≠ 0 := fun hzero => by
      rw [x.inverse_of_constantTerm_zero options hzero] at hy
      cases hy
    obtain ⟨v, hbest, heq⟩ := x.inverse_eq_bestIterate options hc
    rw [hy] at heq
    split at heq
    · obtain ⟨k, _, _, hle⟩ := id hbest
      exact ⟨v, Except.ok.inj heq, ‹_›, hle 0 (.inl (Nat.zero_le k)), hbest⟩
    · cases heq
  · obtain ⟨v, hbest, heq⟩ := x.inverse_eq_bestIterate options hc
    rw [hcause] at heq
    split at heq
    · cases heq
    · exact ⟨v, Except.error.inj heq, not_lt.mp ‹_›, hbest⟩
  · obtain ⟨s, a⟩ := a
    obtain ⟨t, x⟩ := x
    obtain rfl : s = t := halike.eq
    refine ⟨?_, fun cause => ?_, fun hx hc => divide_constant s a x hx hc⟩
    · rw [divide_eq, inverse_eq]
      cases Shape.inverse NewtonOptions.standard x with
      | error cause => rfl
      | ok y =>
          exact (multiply_mk .standard s a y).symm
    · rw [divide_eq, inverse_eq]
      cases Shape.inverse NewtonOptions.standard x with
      | error cause => exact Iff.rfl
      | ok y =>
          constructor
          · intro h
            cases h
          · intro h
            cases h

attribute [local instance] CosineTransform.bySums in
/-- Both ends of a refinement, and a quotient by a constant. -/
theorem inverse_certified_ramp :
    (∃ v : (ramp ℚ).shape.Coefficients ℚ,
      (ramp ℚ).inverse NewtonOptions.standard = .ok ⟨(ramp ℚ).shape, v⟩ ∧
      Shape.residualNorm .direct (ramp ℚ).coeffs v < 1 ∧
      Shape.BestIterate NewtonOptions.standard (ramp ℚ).coeffs v) ∧
    (∃ v : (plane (Complex ℝ)).shape.Coefficients (Complex ℝ),
      (plane (Complex ℝ)).inverse ⟨0, 0, .direct⟩ = .error (.notConverged 2) ∧
      Shape.residualNorm .direct (plane (Complex ℝ)).coeffs v = 2 ∧
      Shape.BestIterate ⟨0, 0, .direct⟩ (plane (Complex ℝ)).coeffs v) ∧
    (plane ℝ).divide ((plane ℝ).constantLike 2) = (plane ℝ).divScalar 2 := by
  refine ⟨?_, ?_, ?_⟩
  · obtain ⟨k, _, heq⟩ := Shape.inverse_of_relativeSpread NewtonOptions.standard
      (constantTerm_ramp_ne_zero ℚ) (by rw [relativeSpread_ramp]; norm_num)
    have hok : (ramp ℚ).inverse NewtonOptions.standard
        = .ok ⟨(ramp ℚ).shape, Shape.newton .standard (ramp ℚ).coeffs k⟩ := by
      rw [inverse_eq NewtonOptions.standard (ramp ℚ).shape (ramp ℚ).coeffs, heq]
      rfl
    obtain ⟨v, hv, hone, _, hbest⟩ :=
      (inverse_certified NewtonOptions.standard (ramp ℚ)).2.1 _ hok
    exact ⟨v, hv ▸ hok, hone, hbest⟩
  · have hc : (plane (Complex ℝ)).constantTerm ≠ 0 := by
      rw [constantTerm_plane]
      exact ValuedField.one_ne_zero (Complex ℝ)
    have herror : (plane (Complex ℝ)).inverse ⟨0, 0, .direct⟩ = .error (.notConverged 2) := by
      rw [inverse_eq ⟨0, 0, .direct⟩ (plane (Complex ℝ)).shape (plane (Complex ℝ)).coeffs,
        Shape.inverse_of_maxIterations_zero rfl hc, relativeSpread_plane, if_neg (by norm_num)]
      rfl
    obtain ⟨v, hv, hone, hbest⟩ :=
      (inverse_certified ⟨0, 0, .direct⟩ (plane (Complex ℝ))).2.2.1 _ herror hc
    exact ⟨v, herror, (Error.notConverged.inj hv).symm, hbest⟩
  · exact ((inverse_certified NewtonOptions.standard ((plane ℝ).constantLike 2)).2.2.2
      (plane ℝ) ⟨rfl, rfl⟩).2.2 (Shape.isConstant_constant 2) two_ne_zero

end Expansion

end TensorChebyshev
