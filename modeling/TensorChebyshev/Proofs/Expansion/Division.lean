import Mathlib
import TensorChebyshev.Proofs.Expansion.ComposeSeries
import TensorChebyshev.Proofs.Inverse.Degenerate
import TensorChebyshev.Proofs.Inverse.Quotient
import TensorChebyshev.Proofs.Product.Transform
import TensorChebyshev.Proofs.Series.Fit

/-!
# What is divided by

Every division of the library stands behind a test for zero. Over dual numbers
such a test is passed by a scalar without a value, by which nothing can be
divided: a division of coefficients and a width of an interval then go through.
A reciprocal is judged by its residual besides, and so it is refused unless the
expansion is constant.
-/

namespace TensorChebyshev

attribute [local instance] ExactRing.toCommRing

/-- Multiplication by values gives the product that multiplication by rows gives. -/
def CosineTransform.Agrees (T : Type) {R : Type} [RealLine R] [Scalar T R] [CosineTransform T] :
    Prop :=
  ∀ (s : Shape) (a b : s.Coefficients T),
    Shape.multiply .transform a b = Shape.multiply .direct a b

/-! ## Widths -/

section Width

variable {F R : Type} [RealLine R] [OrderedLine R] [Scalar F R] {ι : F → R}

theorem isZero_magnitude_dual (h : OrderedScalars ι) (x : Dual F) :
    isZero (Scalar.magnitude x : R) = true ↔ x = 0 := by
  rw [ExactRing.isZero_iff, h.magnitude_eq_zero_dual]

theorem intervalWidth_dual_of_ne (h : OrderedScalars ι) {a b : Dual F} (hne : b - a ≠ 0) :
    intervalWidth a b = (.ok (b - a) : Result R (Dual F)) :=
  intervalWidth_eq_ok_iff.mpr ⟨rfl, eq_false_of_ne_true fun hzero =>
    hne ((isZero_magnitude_dual h _).mp hzero), OrderedLine.isFinite_eq _⟩

theorem intervalWidth_dual_of_eq (h : OrderedScalars ι) {a b : Dual F} (heq : b - a = 0) :
    intervalWidth a b = (.error .degenerateInterval : Result R (Dual F)) := by
  rw [intervalWidth]
  simp only [(isZero_magnitude_dual h _).mpr heq, Bool.true_or, if_true]

end Width

namespace Shape

/-! ## Reciprocals -/

section Reciprocal

variable {F R : Type} [RealLine R] [OrderedLine R] [Scalar F R] [ExactRing F]
  [CosineTransform (Dual F)] {ι : F → R}

attribute [local instance] OrderedLine.toLinearOrder OrderedLine.isOrderedRing

omit [OrderedLine R] [ExactRing F] in
theorem newton_of_agrees {strategy : Strategy}
    (hagree : strategy = .transform → CosineTransform.Agrees (Dual F))
    {s : Shape} (x : s.Coefficients (Dual F)) (j : Nat) :
    newton strategy x j = newton .direct x j ∧
      normAt strategy x j = normAt .direct x j := by
  have hproduct : ∀ a b : s.Coefficients (Dual F),
      multiply strategy a b = multiply .direct a b := fun a b => by
    cases strategy with
    | direct => rfl
    | transform => exact hagree rfl s a b
  have hnewton : ∀ k, newton strategy x k = newton .direct x k := by
    intro k
    induction k with
    | zero => rfl
    | succ k ih =>
        rw [newton, newton, ih, newtonStep, newtonStep, residual,
          residual, hproduct, hproduct]
  refine ⟨hnewton j, ?_⟩
  rw [normAt, normAt, hnewton, residualNorm, residualNorm, residual,
    residual, hproduct]

/-- A constant with a value is inverted without a residual. -/
theorem residualNorm_of_isConstant (h : OrderedScalars ι) {s : Shape}
    {x : s.Coefficients (Dual F)} (hx : isConstant x = true)
    (hc : (constantTerm x).re ≠ 0) :
    residualNorm .direct x (s.constant (1 / constantTerm x)) = 0 := by
  have hproduct : multiply .direct x (s.constant (1 / constantTerm x))
      = s.constant 1 := by
    rw [multiply_constant, eq_constant_of_isConstant hx, constantTerm_constant,
      scale_constant, h.mul_one_div_dual hc]
  have hfold : ∀ n : Nat, (List.replicate n (0 : Dual F)).foldl
      (fun acc x => acc + Scalar.magnitude x) (0 : R) = 0 := by
    intro n
    induction n with
    | zero => rfl
    | succ n ih =>
        rw [List.replicate_succ, List.foldl_cons, (h.magnitude_eq_zero_dual 0).mpr rfl, add_zero,
          ih]
  rw [residualNorm, residual, hproduct, sub_self, norm, ← Vector.foldl_toList]
  exact (congrArg _ Vector.toList_replicate).trans (hfold s.size)

/-- A reciprocal that is returned, of what is not a constant without a value. -/
theorem inverse_dual_ok (h : OrderedScalars ι) (options : NewtonOptions R)
    (hagree : options.strategy = .transform → CosineTransform.Agrees (Dual F))
    {s : Shape} {x y : s.Coefficients (Dual F)}
    (hx : isConstant x = false ∨ (constantTerm x).re ≠ 0)
    (hok : inverse options x = .ok y) :
    (constantTerm x).re ≠ 0 ∧ RealLine.le 1 (residualNorm .direct x y) = false := by
  have hzero : ¬ isZero (constantTerm x) = true := fun hzero => by
    rw [inverse_of_zero options hzero] at hok
    cases hok
  by_cases hconstant : isConstant x = true
  · have hre : (constantTerm x).re ≠ 0 := by
      rcases hx with hx | hx
      · rw [hconstant] at hx
        cases hx
      · exact hx
    rw [inverse_of_isConstant options hzero hconstant] at hok
    obtain rfl := Except.ok.inj hok
    refine ⟨hre, eq_false_of_ne_true fun hle => ?_⟩
    rw [residualNorm_of_isConstant h hconstant hre] at hle
    exact OrderedLine.zero_ne_one (le_antisymm zero_le_one (le_line.mp hle))
  · obtain ⟨k, hrun⟩ := inverse_eq_iterate options hzero hconstant
    obtain ⟨hnewton, hnorm⟩ := newton_of_agrees hagree x k
    rw [hok, hnewton, hnorm, isNaN_line, Bool.false_or] at hrun
    by_cases hle : RealLine.le 1 (normAt .direct x k) = true
    · rw [if_pos hle] at hrun
      cases hrun
    · rw [if_neg hle] at hrun
      obtain rfl := Except.ok.inj hrun
      refine ⟨fun hre => hle ?_, eq_false_of_ne_true hle⟩
      exact one_le_normAt h hre k

omit [OrderedLine R] [ExactRing F] in
/-- There are no other refusals of a reciprocal. -/
theorem inverse_error (options : NewtonOptions R) {s : Shape} {x : s.Coefficients (Dual F)}
    {cause : Error R} (herror : inverse options x = .error cause) :
    (isZero (constantTerm x) = true ∧ cause = .zeroConstantTerm) ∨
      (isZero (constantTerm x) = false ∧ ∃ r, cause = .notConverged r) := by
  by_cases hzero : isZero (constantTerm x) = true
  · rw [inverse_of_zero options hzero] at herror
    exact .inl ⟨hzero, (Except.error.inj herror).symm⟩
  refine .inr ⟨eq_false_of_ne_true hzero, ?_⟩
  by_cases hconstant : isConstant x = true
  · rw [inverse_of_isConstant options hzero hconstant] at herror
    cases herror
  · obtain ⟨k, hrun⟩ := inverse_eq_iterate options hzero hconstant
    rw [herror] at hrun
    split at hrun
    · exact ⟨_, Except.error.inj hrun⟩
    · cases hrun

end Reciprocal

end Shape

namespace Expansion

/-! ## Coefficients divided by a scalar -/

section Divide

variable {T R : Type} [Scalar T R] [ExactRing T]

theorem divScalar_of_eq (e : Expansion T) {v : T} (h : v = 0) :
    e.divScalar v = (.error .zeroDivisor : Result R (Expansion T)) :=
  if_pos ((ExactRing.isZero_iff v).mpr h)

theorem divScalar_of_ne (e : Expansion T) {v : T} (h : v ≠ 0) :
    e.divScalar v = (.ok (e.map (·.map (· / v))) : Result R (Expansion T)) :=
  if_neg fun hzero => h ((ExactRing.isZero_iff v).mp hzero)

end Divide

/-! ## Series on an interval -/

section Series

variable {T R : Type} [RealLine R] [Scalar T R] [CosineTransform T] (e : Expansion T) {a b : T}

theorem chebyshevBasis_of_width {width : T} (h : intervalWidth a b = .ok width) :
    ∃ l, e.chebyshevBasis a b = .ok l := by
  rw [chebyshevBasis, h]
  exact ⟨_, rfl⟩

theorem composeSeries_of_width (cs : List T) {width : T} (h : intervalWidth a b = .ok width) :
    ∃ g, e.composeSeries cs a b = .ok g := by
  rw [composeSeries, h]
  exact ⟨_, rfl⟩

theorem chebyshevBasis_of_error {cause : Error R} (h : intervalWidth a b = .error cause) :
    e.chebyshevBasis a b = .error cause := by
  rw [chebyshevBasis, h]
  rfl

theorem composeSeries_of_error (cs : List T) {cause : Error R}
    (h : intervalWidth a b = .error cause) : e.composeSeries cs a b = .error cause := by
  rw [composeSeries, h]
  rfl

end Series

/-! ## All divisions -/

section Guards

variable {F R : Type} [RealLine R] [Scalar F R] [CosineTransform (Dual F)] {ι : F → R}

theorem inverse_eq_ok {options : NewtonOptions R} {x y : Expansion (Dual F)}
    (h : x.inverse options = .ok y) :
    ∃ v, y = ⟨x.shape, v⟩ ∧ Shape.inverse options x.coeffs = .ok v := by
  rw [inverse_eq options x.shape x.coeffs] at h
  obtain ⟨v, hv, rfl⟩ := exists_of_map_eq_ok h
  exact ⟨v, rfl, hv⟩

theorem inverse_eq_error {options : NewtonOptions R} {x : Expansion (Dual F)} {cause : Error R}
    (h : x.inverse options = .error cause) : Shape.inverse options x.coeffs = .error cause := by
  rw [inverse_eq options x.shape x.coeffs] at h
  cases hv : Shape.inverse options x.coeffs with
  | error cause' =>
      rw [hv] at h
      rw [Except.error.inj h]
  | ok v =>
      rw [hv] at h
      cases h

variable [OrderedLine R] [ExactRing F]

/-- **What the tests before a division decide** over dual numbers. Coefficients are divided by
everything but zero, and an interval may have every width but zero. A reciprocal is refused
as such exactly for a constant term that is zero; apart from constants without a value, one that
is returned belongs to a constant term with a value and leaves a residual below one, and all
the others are refused as not converged. Multiplication by values has to be exact where the
iteration uses it. -/
theorem divisions_guarded (h : OrderedScalars ι) :
    (∀ (e : Expansion (Dual F)) (v : Dual F),
      (v = 0 → e.divScalar v = .error (.zeroDivisor : Error R)) ∧
      (v ≠ 0 → ∃ q, e.divScalar v = (.ok q : Result R _))) ∧
    (∀ (e : Expansion (Dual F)) (cs : List (Dual F)) (a b : Dual F),
      (b - a = 0 → e.chebyshevBasis a b = .error .degenerateInterval ∧
        e.composeSeries cs a b = .error .degenerateInterval) ∧
      (b - a ≠ 0 → (∃ l, e.chebyshevBasis a b = .ok l) ∧ ∃ g, e.composeSeries cs a b = .ok g)) ∧
    ∀ (options : NewtonOptions R) (x : Expansion (Dual F)),
      (x.inverse options = .error .zeroConstantTerm ↔ x.constantTerm = 0) ∧
      (∀ cause, x.inverse options = .error cause →
        cause = .zeroConstantTerm ∨ ∃ r, cause = .notConverged r) ∧
      ((options.strategy = .transform → CosineTransform.Agrees (Dual F)) →
        x.isConstant = false ∨ x.constantTerm.re ≠ 0 → ∀ y, x.inverse options = .ok y →
          x.constantTerm.re ≠ 0 ∧ ∃ v, y = ⟨x.shape, v⟩ ∧
            RealLine.le 1 (Shape.residualNorm .direct x.coeffs v) = false) := by
  refine ⟨fun e v => ⟨fun hv => e.divScalar_of_eq hv, fun hv => ⟨_, e.divScalar_of_ne hv⟩⟩,
    fun e cs a b => ⟨fun hwidth => ?_, fun hwidth => ?_⟩, fun options x => ⟨⟨fun herror => ?_,
    fun hzero => ?_⟩, fun cause herror => ?_, fun hagree hx y hok => ?_⟩⟩
  · have herror := intervalWidth_dual_of_eq h hwidth
    exact ⟨e.chebyshevBasis_of_error herror, e.composeSeries_of_error cs herror⟩
  · have hok := intervalWidth_dual_of_ne h hwidth
    exact ⟨e.chebyshevBasis_of_width hok, e.composeSeries_of_width cs hok⟩
  · rcases Shape.inverse_error options (inverse_eq_error herror) with ⟨hzero, _⟩ | ⟨_, r, hr⟩
    · exact (ExactRing.isZero_iff _).mp hzero
    · cases hr
  · rw [inverse_eq options x.shape x.coeffs,
      Shape.inverse_of_zero options ((ExactRing.isZero_iff x.constantTerm).mpr hzero)]
    rfl
  · rcases Shape.inverse_error options (inverse_eq_error herror) with ⟨_, hcause⟩ | ⟨_, hcause⟩
    · exact .inl hcause
    · exact .inr hcause
  · obtain ⟨v, rfl, hv⟩ := inverse_eq_ok hok
    obtain ⟨hre, hnorm⟩ := Shape.inverse_dual_ok h options hagree hx hv
    exact ⟨hre, v, rfl, hnorm⟩

end Guards

/-! ## A derivative part alone -/

attribute [local instance] CosineTransform.bySums

theorem agrees_bySums {T : Type} [Scalar T ℝ] [RealAlgebra T] : CosineTransform.Agrees T :=
  fun _ a b => Shape.multiply_transform CosineTransform.exact_bySums a b

theorem infinitesimal_ne_zero : (⟨0, 1⟩ : Dual ℝ) ≠ 0 :=
  fun h => one_ne_zero (congrArg Dual.eps h : (1 : ℝ) = 0)

theorem infinitesimal_width : (⟨0, 1⟩ : Dual ℝ) - 0 ≠ 0 := by
  rw [sub_zero]
  exact infinitesimal_ne_zero

/-- The infinitesimal is not zero, and everything that tests for zero lets it pass, also the
reciprocal of a constant. -/
theorem infinitesimal_divides :
    (⟨0, 1⟩ : Dual ℝ).re = 0 ∧
    (∃ q, (plane (Dual ℝ)).divScalar ⟨0, 1⟩ = (.ok q : Result ℝ _)) ∧
    (∃ l, (plane (Dual ℝ)).chebyshevBasis 0 ⟨0, 1⟩ = .ok l) ∧
    (∃ g, (plane (Dual ℝ)).composeSeries [1] 0 ⟨0, 1⟩ = .ok g) ∧
    ∃ y, ((plane (Dual ℝ)).constantLike ⟨0, 1⟩).inverse NewtonOptions.standard = .ok y := by
  have hok := intervalWidth_dual_of_ne orderedScalars_real infinitesimal_width
  refine ⟨rfl, ⟨_, divScalar_of_ne _ infinitesimal_ne_zero⟩, chebyshevBasis_of_width _ hok,
    composeSeries_of_width _ _ hok, ?_⟩
  let v := (plane (Dual ℝ)).shape.constant (⟨0, 1⟩ : Dual ℝ)
  have hterm : ¬ TensorChebyshev.isZero (Shape.constantTerm v) = true := fun h => by
    rw [Shape.constantTerm_constant] at h
    exact infinitesimal_ne_zero ((ExactRing.isZero_iff _).mp h)
  have hinverse := Shape.inverse_of_isConstant NewtonOptions.standard hterm
    (Shape.isConstant_constant _)
  exact ⟨_, (inverse_eq NewtonOptions.standard _ v).trans (congrArg (Except.map _) hinverse)⟩

/-- A nonconstant expansion with an infinitesimal constant term has no reciprocal, with either
way of multiplying. -/
theorem divisions_guarded_infinitesimal :
    (∃ q, (plane (Dual ℝ)).divScalar ⟨0, 1⟩ = (.ok q : Result ℝ _)) ∧
    (∃ g, (plane (Dual ℝ)).composeSeries [1] 0 ⟨0, 1⟩ = .ok g) ∧
    ∃ r, Expansion.inverse ⟨64, 0, .transform⟩
        ⟨(ramp (Dual ℝ)).shape, Shape.setConstantTerm (ramp (Dual ℝ)).coeffs ⟨0, 1⟩⟩
      = .error (.notConverged r) := by
  obtain ⟨hdivide, hseries, hinverse⟩ := divisions_guarded orderedScalars_real
  refine ⟨(hdivide _ _).2 infinitesimal_ne_zero, ((hseries _ [1] _ _).2 infinitesimal_width).2, ?_⟩
  let x : Expansion (Dual ℝ) :=
    ⟨(ramp (Dual ℝ)).shape, Shape.setConstantTerm (ramp (Dual ℝ)).coeffs ⟨0, 1⟩⟩
  obtain ⟨hzero, herror, hok⟩ := hinverse ⟨64, 0, .transform⟩ x
  have hterm : x.constantTerm = ⟨0, 1⟩ := Vector.getElem_set_self _
  have hlist : x.coeffs.toList = [⟨0, 1⟩, 1, 0] := by
    show (Shape.setConstantTerm (ramp (Dual ℝ)).coeffs ⟨0, 1⟩).toList = _
    rw [Shape.setConstantTerm, Vector.toList_set]
    rfl
  have hconstant : x.isConstant = false := by
    have hone : (1 : Dual ℝ) ≠ 0 := fun h => one_ne_zero (congrArg Dual.re h : (1 : ℝ) = 0)
    rw [isConstant, Shape.isConstant, hlist, List.tail_cons, List.all_cons, Bool.and_eq_false_iff]
    exact .inl (eq_false_of_ne_true fun h => hone ((ExactRing.isZero_iff _).mp h))
  cases hx : x.inverse ⟨64, 0, .transform⟩ with
  | ok y =>
      have hre := (hok (fun _ => agrees_bySums) (.inl hconstant) y hx).1
      rw [hterm] at hre
      exact absurd rfl hre
  | error cause =>
      rcases herror cause hx with rfl | ⟨r, rfl⟩
      · rw [hzero.mp hx] at hterm
        exact absurd hterm.symm infinitesimal_ne_zero
      · exact ⟨r, rfl⟩

end Expansion

end TensorChebyshev
