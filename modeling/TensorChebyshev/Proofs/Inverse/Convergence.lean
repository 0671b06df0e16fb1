import Mathlib
import TensorChebyshev.Proofs.Inverse.Quotient

/-!
# Newton's method squares the residual

As long as the degree leaves room for the whole square, a step squares the
residual: `1 - x (y + y r) = (1 - x y) - (x y) r = r - (1 - r) r = r r`, where the
second equality is the associativity of products that nothing is cut off. So the
residuals fall as fast as the powers of the first one, and an early end of the
refinement loses no more than the tolerance allows.
-/

namespace TensorChebyshev

theorem two_pow_succ_mul (j e : Nat) : 2 ^ (j + 1) * e = 2 ^ j * e + 2 ^ j * e := by
  rw [pow_succ, Nat.mul_two, Nat.add_mul]

namespace Shape

/-! ## Squares -/

section Square

variable {T R : Type} [RealLine R] [Scalar T R] [CosineTransform T] [ExactRing T] {s : Shape}

attribute [local instance] ExactRing.toCommRing

theorem residual_newtonStep (hhalf : (Scalar.half : T) + Scalar.half = 1)
    {x y : s.Coefficients T} (h : (terms x).degree + (terms y).degree
      + (terms (residual .direct x y)).degree ≤ s.degree) :
    residual .direct x (newtonStep .direct x y)
      = multiply .direct (residual .direct x y) (residual .direct x y) := by
  have hproduct : multiply .direct x y = s.constant 1 - residual .direct x y := by
    rw [residual, sub_sub_cancel]
  have hstep : multiply .direct x (newtonStep .direct x y)
      = s.constant 1 - multiply .direct (residual .direct x y) (residual .direct x y) := by
    rw [newtonStep, multiply_add, ← multiply_assoc hhalf h, hproduct, sub_multiply, one_multiply]
    abel
  rw [residual, hstep, sub_sub_cancel]

/-- While its square has room, the iterate and its residual are no larger than those of
polynomials of the degree `2 ^ j e`. -/
theorem degree_newton_le (x : s.Coefficients T) (j : Nat) :
    (terms (newton .direct x j)).degree + (terms x).degree ≤ 2 ^ j * (terms x).degree ∧
      (terms (residual .direct x (newton .direct x j))).degree
        ≤ 2 ^ j * (terms x).degree := by
  have hresidual : ∀ y : s.Coefficients T, (terms (residual .direct x y)).degree
      ≤ (terms y).degree + (terms x).degree := by
    intro y
    refine degree_sub_le ?_ ?_
    · rw [degree_constant]
      exact Nat.zero_le _
    · rw [Nat.add_comm]
      exact degree_multiply_le x y
  have hiterate : (terms (newton .direct x j)).degree + (terms x).degree
      ≤ 2 ^ j * (terms x).degree := by
    induction j with
    | zero => rw [newton, degree_constant, Nat.zero_add, pow_zero, Nat.one_mul]
    | succ j ih =>
        have hr := hresidual (newton .direct x j)
        have hproduct := degree_multiply_le (newton .direct x j)
          (residual .direct x (newton .direct x j))
        have hsum : (terms (newton .direct x (j + 1))).degree
            ≤ (terms (newton .direct x j)).degree
              + (terms (residual .direct x (newton .direct x j))).degree :=
          degree_add_le (Nat.le_add_right _ _) hproduct
        rw [two_pow_succ_mul]
        omega
  exact ⟨hiterate, (hresidual _).trans hiterate⟩

/-- **A step squares the residual** while the square has room. -/
theorem residual_newton_succ (hhalf : (Scalar.half : T) + Scalar.half = 1)
    {x : s.Coefficients T} {j : Nat} (h : 2 ^ (j + 1) * (terms x).degree ≤ s.degree) :
    residual .direct x (newton .direct x (j + 1))
      = multiply .direct (residual .direct x (newton .direct x j))
          (residual .direct x (newton .direct x j)) := by
  obtain ⟨hiterate, hresidual⟩ := degree_newton_le x j
  rw [two_pow_succ_mul] at h
  exact residual_newtonStep hhalf (by omega)

/-! ## Values -/

theorem value_residual (hhalf : (Scalar.half : T) + Scalar.half = 1) {x y : s.Coefficients T}
    (h : (terms x).degree + (terms y).degree ≤ s.degree) {p : List T} (hp : p.length = s.nvar) :
    value (residual .direct x y) p = 1 - value x p * value y p := by
  rw [residual, value_sub, value_constant, value_multiply_direct_of_degree hhalf x y h hp]

theorem value_residual_newton (hhalf : (Scalar.half : T) + Scalar.half = 1)
    {x : s.Coefficients T} {p : List T} (hp : p.length = s.nvar) {j : Nat}
    (h : 2 ^ j * (terms x).degree ≤ s.degree) :
    value (residual .direct x (newton .direct x j)) p
      = (1 - value x p * (1 / constantTerm x)) ^ 2 ^ j := by
  induction j with
  | zero =>
      have hdegree : (terms x).degree + (terms (newton .direct x 0)).degree ≤ s.degree := by
        rw [newton, degree_constant]
        exact degree_terms_le x
      rw [value_residual hhalf hdegree hp, newton, value_constant, pow_zero, pow_one]
  | succ j ih =>
      have hroom := h
      rw [two_pow_succ_mul] at hroom
      have hresidual := (degree_newton_le x j).2
      rw [residual_newton_succ hhalf h, value_multiply_direct_of_degree hhalf _ _ (by omega) hp,
        ih (by omega), ← sq, ← pow_mul, ← pow_succ]

end Square

/-! ## Norms -/

section Norm

variable {T : Type} [Scalar T ℝ] [CosineTransform T] [ValuedField T] {s : Shape}
  {x : s.Coefficients T} {options : NewtonOptions ℝ}

attribute [local instance] ExactRing.toCommRing

theorem normAt_succ_le {j : Nat} (h : 2 ^ (j + 1) * (terms x).degree ≤ s.degree) :
    normAt .direct x (j + 1) ≤ normAt .direct x j ^ 2 := by
  rw [normAt, residualNorm, residual_newton_succ MeasuredRing.half_add_half h, sq]
  exact norm_multiply_le _ _

theorem normAt_nonneg (strategy : Strategy) (x : s.Coefficients T) (j : Nat) :
    0 ≤ normAt strategy x j := norm_nonneg _

/-- **The norms of the residuals fall like the powers of the first one.** -/
theorem normAt_le_pow (hc : constantTerm x ≠ 0) {j : Nat}
    (h : 2 ^ j * (terms x).degree ≤ s.degree) :
    normAt .direct x j ≤ relativeSpread x ^ 2 ^ j := by
  induction j with
  | zero => rw [normAt_zero _ hc, pow_zero, pow_one]
  | succ j ih =>
      have hroom := h
      rw [two_pow_succ_mul] at hroom
      calc normAt .direct x (j + 1)
          ≤ normAt .direct x j ^ 2 := normAt_succ_le h
        _ ≤ (relativeSpread x ^ 2 ^ j) ^ 2 :=
            pow_le_pow_left₀ (normAt_nonneg _ _ _) (ih (by omega)) 2
        _ = relativeSpread x ^ 2 ^ (j + 1) := by rw [← pow_mul, ← pow_succ]

/-- Below one no step that squares the residual fails to make it smaller, unless it is
zero already. -/
theorem EndsAt.normAt_le {k n : Nat} (hend : EndsAt options x k)
    (hstrategy : options.strategy = .direct) (hc : constantTerm x ≠ 0)
    (hq : relativeSpread x < 1) (hn : n ≤ options.maxIterations)
    (h : 2 ^ n * (terms x).degree ≤ s.degree) :
    normAt .direct x k ≤ max options.tolerance (relativeSpread x ^ 2 ^ n) := by
  have hfall : ∀ i ≤ k, normAt .direct x k ≤ normAt .direct x i := by
    intro i hi
    rw [← hstrategy]
    exact hend.normAt_anti hi (Nat.le_refl k)
  have hq0 : 0 ≤ relativeSpread x := normAt_zero _ hc ▸ normAt_nonneg .direct x 0
  -- beyond step `n` the residual is smaller still
  by_cases hkn : n ≤ k
  · exact le_max_of_le_right ((hfall n hkn).trans (normAt_le_pow hc h))
  have hstops := hend.stops
  rw [hstrategy] at hstops
  rcases hstops with hsmall | hlast | hback
  · exact le_max_of_le_left hsmall
  · omega
  · have hroom : 2 ^ (k + 1) * (terms x).degree ≤ s.degree :=
      (Nat.mul_le_mul_right _ (Nat.pow_le_pow_right two_pos (by omega))).trans h
    have hsquare : normAt .direct x k ≤ normAt .direct x k ^ 2 := hback.trans (normAt_succ_le hroom)
    have hone : normAt .direct x k < 1 := by
      refine (hfall 0 (Nat.zero_le k)).trans_lt ?_
      rw [normAt_zero _ hc]
      exact hq
    have hzero : normAt .direct x k ≤ 0 := by
      nlinarith [normAt_nonneg .direct x k]
    exact le_max_of_le_right (hzero.trans (pow_nonneg hq0 _))

end Norm

/-! ## Degrees of what is not constant -/

theorem one_le_degree_of_not_isConstant {T : Type} [Arithmetic T] {s : Shape}
    {v : s.Coefficients T} (h : isConstant v = false) : 1 ≤ (terms v).degree := by
  obtain ⟨rest, hrest⟩ := graded_eq_cons s.nvar s.degree
  have hnodup := nodup_graded s.nvar s.degree
  rw [hrest, List.nodup_cons] at hnodup
  rw [isConstant, List.all_eq_false] at h
  obtain ⟨c, hc, hne⟩ := h
  -- a coefficient behind the first one belongs to another tuple than the first
  have hlen : v.toList.tail.length ≤ rest.length := by
    have hsize := congrArg List.length hrest
    rw [← GradedBasis.size_eq, List.length_cons] at hsize
    rw [List.length_tail, v.length_toList, hsize, Nat.add_sub_cancel]
  have hsnd : c ∈ (rest.zip v.toList.tail).map Prod.snd := by rwa [List.map_snd_zip hlen]
  obtain ⟨⟨t, d⟩, hmem, rfl⟩ := List.mem_map.mp hsnd
  have hterm : (t, d) ∈ (terms v).nonzero := by
    refine List.mem_filter.mpr ⟨?_, by simpa using hne⟩
    rw [terms, GradedBasis.labelled_eq_zip, hrest, toList_eq_cons, List.zip_cons_cons]
    exact List.mem_cons_of_mem _ hmem
  have htuple : t ∈ rest := (List.of_mem_zip hmem).1
  by_contra hlt
  have hle : totalDegree t ≤ (terms v).degree := Combination.le_degree hterm
  have hdegree : totalDegree t = 0 := by omega
  have hlength := length_of_mem_terms (List.mem_of_mem_filter hterm)
  have hzero : t ∈ tuplesOfDegree s.nvar 0 := mem_tuplesOfDegree.mpr ⟨hlength, hdegree⟩
  rw [tuplesOfDegree_zero, List.mem_singleton] at hzero
  exact hnodup.1 (hzero ▸ htuple)

end Shape

namespace Expansion

variable {T : Type} [Scalar T ℝ] [CosineTransform T] [ValuedField T]

attribute [local instance] ExactRing.toCommRing

/-- **Newton's method squares the residual** at every point, as long as the degree has
room for the square. So if what is not constant is smaller than the constant term,
a refinement of enough steps ends with a residual within the tolerance or as small
as the last square that has room. -/
theorem newton_squares_residual (x : Expansion T) (hc : x.constantTerm ≠ 0)
    (hx : x.isConstant = false) :
    1 ≤ x.actualDegree ∧
    (∀ j : Nat, 2 ^ j * x.actualDegree ≤ x.degree → ∀ p : List T, p.length = x.nvar →
      1 - x.value p * Shape.value (Shape.newton .direct x.coeffs j) p
        = (1 - x.value p / x.constantTerm) ^ 2 ^ j) ∧
    ∀ (options : NewtonOptions ℝ) (n : Nat), options.strategy = .direct →
      n ≤ options.maxIterations → 2 ^ n * x.actualDegree ≤ x.degree →
      Shape.relativeSpread x.coeffs < 1 →
      ∃ y : x.shape.Coefficients T, x.inverse options = .ok ⟨x.shape, y⟩ ∧
        Shape.norm (x.shape.constant 1 - Shape.multiply .direct x.coeffs y)
          ≤ max options.tolerance (Shape.relativeSpread x.coeffs ^ 2 ^ n) := by
  have hhalf : (Scalar.half : T) + Scalar.half = 1 := MeasuredRing.half_add_half
  refine ⟨Shape.one_le_degree_of_not_isConstant hx, fun j hj p hp => ?_,
    fun options n hstrategy hn hroom hq => ?_⟩
  · have hdegree := (Shape.degree_newton_le x.coeffs j).1
    have hroom : (Shape.terms x.coeffs).degree
        + (Shape.terms (Shape.newton .direct x.coeffs j)).degree ≤ x.degree := by
      rw [actualDegree] at hj
      omega
    rw [ValuedField.div_eq_mul_one_div _ hc]
    exact (Shape.value_residual hhalf hroom hp).symm.trans
      (Shape.value_residual_newton hhalf hp hj)
  · obtain ⟨k, hend, heq⟩ := Shape.inverse_of_relativeSpread options hc hq
    refine ⟨Shape.newton .direct x.coeffs k, ?_, ?_⟩
    · rw [inverse_eq options x.shape x.coeffs, heq, hstrategy]
      rfl
    · exact hend.normAt_le hstrategy hc hq hn hroom

attribute [local instance] CosineTransform.bySums in
theorem newton_squares_residual_ramp :
    1 - (ramp ℚ).value [3] * Shape.value (Shape.newton .direct (ramp ℚ).coeffs 1) [3] = 9 / 4 ∧
    ∃ y : (ramp (Complex ℝ)).shape.Coefficients (Complex ℝ),
      (ramp (Complex ℝ)).inverse ⟨1, 0, .direct⟩ = .ok ⟨(ramp (Complex ℝ)).shape, y⟩ ∧
      Shape.norm ((ramp (Complex ℝ)).shape.constant 1
        - Shape.multiply .direct (ramp (Complex ℝ)).coeffs y) ≤ 1 / 4 := by
  have hroom : ∀ (T : Type) [Scalar T ℝ] [ValuedField T],
      2 ^ 1 * (ramp T).actualDegree ≤ (ramp T).degree := fun T _ _ =>
    Nat.mul_le_mul_left 2 (actualDegree_ramp_le T)
  refine ⟨?_, ?_⟩
  · have hvalue := (newton_squares_residual (ramp ℚ) (constantTerm_ramp_ne_zero ℚ)
      (isConstant_ramp ℚ)).2.1 1 (hroom ℚ) [3] rfl
    rw [hvalue, value_ramp]
    show 1 * (1 - (1 + 1 + 3) / (1 + 1)) * (1 - (1 + 1 + 3) / (1 + 1)) = (9 / 4 : ℚ)
    norm_num
  · obtain ⟨y, hy, hnorm⟩ := (newton_squares_residual (ramp (Complex ℝ))
      (constantTerm_ramp_ne_zero _) (isConstant_ramp _)).2.2 ⟨1, 0, .direct⟩ 1 rfl
      (Nat.le_refl 1) (hroom _) (by rw [relativeSpread_ramp]; norm_num)
    refine ⟨y, hy, hnorm.trans ?_⟩
    rw [relativeSpread_ramp]
    norm_num

end Expansion

end TensorChebyshev
