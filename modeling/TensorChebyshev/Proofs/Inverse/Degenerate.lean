import Mathlib
import TensorChebyshev.Proofs.Cosine.Change
import TensorChebyshev.Proofs.Inverse.Refinement
import TensorChebyshev.Proofs.Product.Change
import TensorChebyshev.Proofs.Product.ConstantTerm
import TensorChebyshev.Proofs.Scalar.Ordered

/-!
# Constant terms without a value

A dual number that is not zero may have no value, only a derivative part, and
then it has no reciprocal. Newton's iteration begins with whatever the division
gives. But in the values of a residual the constant term is one at first, and
each step replaces it by a sum of weighted squares, the first of which is its
own: so no residual has a norm below one, and the reciprocal is refused.
-/

namespace TensorChebyshev

attribute [local instance] ExactRing.toCommRing

namespace Shape

/-! ## The run of a reciprocal, whatever the arithmetic -/

section Run

variable {T R : Type} [RealLine R] [Scalar T R] [CosineTransform T] {s : Shape}

theorem inverse_of_zero (options : NewtonOptions R) {x : s.Coefficients T}
    (h : isZero (constantTerm x) = true) : inverse options x = .error .zeroConstantTerm := if_pos h

theorem inverse_of_isConstant (options : NewtonOptions R) {x : s.Coefficients T}
    (h : ¬ isZero (constantTerm x) = true) (hx : isConstant x = true) :
    inverse options x = .ok (s.constant (1 / constantTerm x)) := by
  rw [inverse]
  simp only [if_neg h, if_pos hx]

/-- What is not constant is judged by the residual of an iterate. -/
theorem inverse_eq_iterate (options : NewtonOptions R) {x : s.Coefficients T}
    (h : ¬ isZero (constantTerm x) = true) (hx : ¬ isConstant x = true) :
    ∃ k, inverse options x
      = if RealLine.isNaN (normAt options.strategy x k)
            || RealLine.le 1 (normAt options.strategy x k) then
          .error (.notConverged (normAt options.strategy x k))
        else .ok (newton options.strategy x k) := by
  obtain ⟨k, _, hrun⟩ := refine_eq_iterate options.strategy options.tolerance x
    options.maxIterations 0
  refine ⟨k, ?_⟩
  rw [inverse]
  simp only [if_neg h, if_neg hx]
  exact congrArg (fun it : Iterate s T R =>
    if RealLine.isNaN it.norm || RealLine.le 1 it.norm then
      (.error (.notConverged it.norm) : Result R (s.Coefficients T)) else .ok it.y) hrun

end Run

/-! ## Constant terms of residuals -/

section Residual

variable {F R : Type} [RealLine R] [Scalar F R] [CosineTransform F] [ExactRing F] {s : Shape}

/-- **A Newton step squares the residual in its constant term**, even where the products
are cut off. -/
theorem constantTerm_residual_newtonStep (hhalf : (Scalar.half : F) + Scalar.half = 1)
    (x y : s.Coefficients F) :
    constantTerm (residual .direct x (newtonStep .direct x y))
      = constantTerm (multiply .direct (residual .direct x y) (residual .direct x y)) := by
  let r := residual .direct x y
  have hproduct : multiply .direct x y = s.constant 1 - r := (sub_sub_cancel _ _).symm
  have hnext : residual .direct x (newtonStep .direct x y)
      = r - multiply .direct x (multiply .direct y r) := by
    show s.constant 1 - multiply .direct x (y + multiply .direct y r) = r - _
    rw [multiply_add, ← sub_sub]
    rfl
  have hsquare : multiply .direct (multiply .direct x y) r = r - multiply .direct r r := by
    rw [hproduct, sub_multiply, one_multiply]
  rw [hnext, constantTerm_sub, ← constantTerm_multiply_assoc hhalf, hsquare, constantTerm_sub,
    sub_sub_cancel]

/-- The first residual of an expansion without a constant term. -/
theorem constantTerm_residual_constant {x : s.Coefficients F} (hx : constantTerm x = 0) (c : F) :
    constantTerm (residual .direct x (s.constant c)) = 1 := by
  have hpos := s.size_pos
  have hscaled : constantTerm (scale x c) = 0 := by
    have hentry : constantTerm (scale x c) = constantTerm x * c := by
      rw [constantTerm, constantTerm, scale, Vector.getElem_map]
    rw [hentry, hx, zero_mul]
  rw [residual, multiply_constant, constantTerm_sub, constantTerm_constant, hscaled, sub_zero]

attribute [local instance] OrderedLine.toLinearOrder OrderedLine.isOrderedRing

variable [OrderedLine R] {ι : F → R}

omit [CosineTransform F] [ExactRing F] in
theorem halvedWeight_nonneg (h : OrderedScalars ι) (n : Nat) : 0 ≤ ι (halvedWeight n) := by
  induction n with
  | zero =>
      rw [halvedWeight, h.map_one]
      exact zero_le_one
  | succ n ih =>
      rw [halvedWeight, h.map_mul]
      exact mul_nonneg ih h.half_nonneg

/-- A square has at least the square of the constant term in its constant term. -/
theorem mul_self_le_constantTerm (h : OrderedScalars ι) (r : s.Coefficients F) :
    ι (constantTerm r) * ι (constantTerm r) ≤ ι (constantTerm (multiply .direct r r)) := by
  let first : Fin s.size := ⟨0, s.size_pos⟩
  let term : Fin s.size → F := fun i =>
    r.get i * r.get i * halvedWeight (splits (s.tupleAt i) (s.tupleAt i))
  have hnonneg : ∀ i ∈ Finset.univ, 0 ≤ ι (term i) := by
    intro i _
    show 0 ≤ ι (r.get i * r.get i * _)
    rw [h.map_mul, h.map_mul]
    exact mul_nonneg (mul_self_nonneg _) (halvedWeight_nonneg h _)
  have hfirst : ι (term first) = ι (constantTerm r) * ι (constantTerm r) := by
    show ι (r.get first * r.get first * halvedWeight (splits (s.tupleAt 0) (s.tupleAt 0))) = _
    rw [tupleAt_zero, splits_replicate_zero, h.map_mul, h.map_mul, halvedWeight, h.map_one, mul_one]
    rfl
  have hsum : ι (constantTerm (multiply .direct r r)) = ∑ i, ι (term i) := by
    rw [constantTerm_multiply h.half_add_half]
    exact h.map_finsetSum _ _
  rw [hsum, ← hfirst]
  exact Finset.single_le_sum hnonneg (Finset.mem_univ first)

end Residual

/-! ## Residuals of dual numbers -/

section Change

variable {T T' R : Type} [RealLine R] [Scalar T R] [Scalar T' R] [CosineTransform T]
  [CosineTransform T'] [ExactRing T] [ExactRing T'] {φ : T → T'} {s : Shape}

theorem map_residual (h : ScalarMap φ) (x y : s.Coefficients T) :
    (residual .direct x y).map φ = residual .direct (x.map φ) (y.map φ) := by
  rw [residual, residual, (h.sumMap_vector _).map_sub, map_constant h, h.map_one, map_multiply h]

theorem map_newtonStep (h : ScalarMap φ) (x y : s.Coefficients T) :
    (newtonStep .direct x y).map φ = newtonStep .direct (x.map φ) (y.map φ) := by
  rw [newtonStep, newtonStep, (h.sumMap_vector _).map_add, map_multiply h, map_residual h]

end Change

section Dual

attribute [local instance] OrderedLine.toLinearOrder OrderedLine.isOrderedRing

variable {F R : Type} [RealLine R] [OrderedLine R] [Scalar F R] [ExactRing F]
  [CosineTransform (Dual F)] {ι : F → R} {s : Shape}

omit [ExactRing F] [CosineTransform (Dual F)] in
/-- The constant term is one of the terms of the norm. -/
theorem magnitude_constantTerm_le_norm (h : OrderedScalars ι) (v : s.Coefficients (Dual F)) :
    (Scalar.magnitude (constantTerm v) : R) ≤ Shape.norm v := by
  have hfold : ∀ (l : List (Dual F)) (r : R),
      r ≤ l.foldl (fun acc x => acc + Scalar.magnitude x) r := by
    intro l
    induction l with
    | nil => exact fun r => le_refl r
    | cons x l ih =>
        intro r
        exact (le_add_of_nonneg_right (h.magnitude_nonneg_dual x)).trans (ih _)
  rw [Shape.norm, ← Vector.foldl_toList, toList_eq_cons, List.foldl_cons, zero_add]
  exact hfold _ _

attribute [local instance] CosineTransform.bySums in
/-- **Without a value in the constant term no residual gets below one.** -/
theorem one_le_normAt (h : OrderedScalars ι) {x : s.Coefficients (Dual F)}
    (hx : (constantTerm x).re = 0) (j : Nat) : 1 ≤ normAt .direct x j := by
  let values := fun k => (newton .direct x k).map Dual.re
  have hre : ScalarMap (Dual.re : Dual F → F) := ScalarMap.re
  have hterm : ∀ v : s.Coefficients (Dual F),
      (constantTerm v).re = constantTerm (v.map Dual.re) := fun v => by
    rw [constantTerm, constantTerm, Vector.getElem_map]
  -- the invariant of the iteration
  have hone : ∀ k, 1 ≤ ι (constantTerm (residual .direct (x.map Dual.re) (values k))) := by
    intro k
    induction k with
    | zero =>
        have hfirst : values 0 = s.constant (1 / constantTerm x).re := map_constant hre _
        rw [hfirst, constantTerm_residual_constant ((hterm x).symm.trans hx), h.map_one]
    | succ k ih =>
        have hnext : values (k + 1) = newtonStep .direct (x.map Dual.re) (values k) :=
          map_newtonStep hre _ _
        rw [hnext, constantTerm_residual_newtonStep h.half_add_half]
        exact (one_le_mul_of_one_le_of_one_le ih ih).trans (mul_self_le_constantTerm h _)
  calc (1 : R)
      ≤ ι (constantTerm (residual .direct (x.map Dual.re) (values j))) := hone j
    _ = ι (constantTerm (residual .direct x (newton .direct x j))).re := by
        rw [hterm, map_residual hre]
    _ ≤ Scalar.magnitude (constantTerm (residual .direct x (newton .direct x j))).re :=
        h.le_magnitude _
    _ ≤ Scalar.magnitude (constantTerm (residual .direct x (newton .direct x j))) :=
        h.magnitude_re_le _
    _ ≤ normAt .direct x j := magnitude_constantTerm_le_norm h _

end Dual

end Shape

end TensorChebyshev
