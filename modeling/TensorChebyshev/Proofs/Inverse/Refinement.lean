import Mathlib
import TensorChebyshev.Expansion.Arithmetic
import TensorChebyshev.Proofs.Product.Norm

/-!
# What the refinement of a reciprocal ends with

The iterates of Newton's method are a sequence that depends on the expansion
only; the refinement follows it and ends at one of its members. `EndsAt` says
which one: every step before it was needed and made the residual smaller, and
there the tolerance or the number of steps is reached or the next step does not
pay. So the iterate that is handed back is the best of those computed, and
quotients are products with it.
-/

namespace TensorChebyshev

namespace Shape

/-! ## Iterates -/

section Run

variable {T R : Type} [RealLine R] [Scalar T R] [CosineTransform T] {s : Shape}

/-- What the product `x y` lacks to be one. -/
def residual (strategy : Strategy) (x y : s.Coefficients T) : s.Coefficients T :=
  s.constant 1 - multiply strategy x y

def residualNorm (strategy : Strategy) (x y : s.Coefficients T) : R :=
  Shape.norm (residual strategy x y)

/-- Newton's step from the approximation `y` of the reciprocal of `x`. -/
def newtonStep (strategy : Strategy) (x y : s.Coefficients T) : s.Coefficients T :=
  y + multiply strategy y (residual strategy x y)

/-- Newton's iterates for the reciprocal of `x`, from that of the constant term on. -/
def newton (strategy : Strategy) (x : s.Coefficients T) : (j : Nat) → s.Coefficients T
  | 0 => s.constant (1 / constantTerm x)
  | j + 1 => newtonStep strategy x (newton strategy x j)

variable (strategy : Strategy) (tolerance : R) (x : s.Coefficients T)

/-- The norm of the residual of an iterate. -/
def normAt (j : Nat) : R := residualNorm strategy x (newton strategy x j)

/-- The norm of the next residual is not a number or not smaller. -/
def turnsBack (j : Nat) : Bool :=
  RealLine.isNaN (normAt strategy x (j + 1))
    || RealLine.le (normAt strategy x j) (normAt strategy x (j + 1))

/-- One step of the refinement of an iterate. -/
theorem refine_succ (steps j : Nat) :
    refine strategy tolerance x (steps + 1) (Iterate.of strategy x (newton strategy x j))
      = if RealLine.le (normAt strategy x j) tolerance = true then
          Iterate.of strategy x (newton strategy x j)
        else if turnsBack strategy x j = true then Iterate.of strategy x (newton strategy x j)
        else refine strategy tolerance x steps
          (Iterate.of strategy x (newton strategy x (j + 1))) := rfl

/-- A refinement that begins at iterate `first` and may go as far as `last` ends at `k`. -/
structure RunsTo (first last k : Nat) : Prop where
  first_le : first ≤ k
  le_last : k ≤ last
  goes_on : ∀ i, first ≤ i → i < k →
    RealLine.le (normAt strategy x i) tolerance = false ∧ turnsBack strategy x i = false
  stops : RealLine.le (normAt strategy x k) tolerance = true ∨ k = last ∨
    turnsBack strategy x k = true

/-- **The refinement ends at an iterate**, whatever the arithmetic. -/
theorem refine_eq_iterate (steps first : Nat) :
    ∃ k, RunsTo strategy tolerance x first (first + steps) k ∧
      refine strategy tolerance x steps (Iterate.of strategy x (newton strategy x first))
        = Iterate.of strategy x (newton strategy x k) := by
  induction steps generalizing first with
  | zero =>
      refine ⟨first, ⟨Nat.le_refl _, Nat.le_refl _, fun i hle hlt => ?_, .inr (.inl rfl)⟩, rfl⟩
      omega
  | succ steps ih =>
      have hnone : ∀ i, first ≤ i → i < first →
          RealLine.le (normAt strategy x i) tolerance = false ∧ turnsBack strategy x i = false :=
        fun i hle hlt => absurd hle (Nat.not_le.mpr hlt)
      rw [refine_succ]
      by_cases hsmall : RealLine.le (normAt strategy x first) tolerance = true
      · exact ⟨first, ⟨Nat.le_refl _, by omega, hnone, .inl hsmall⟩, if_pos hsmall⟩
      rw [if_neg hsmall]
      by_cases hback : turnsBack strategy x first = true
      · exact ⟨first, ⟨Nat.le_refl _, by omega, hnone, .inr (.inr hback)⟩, if_pos hback⟩
      -- the step is taken, and the rest of the run begins one iterate later
      obtain ⟨k, hrun, heq⟩ := ih (first + 1)
      have hfirst := hrun.first_le
      have hlast := hrun.le_last
      refine ⟨k, ⟨by omega, by omega, fun i hle hlt => ?_, ?_⟩, (if_neg hback).trans heq⟩
      · rcases Nat.eq_or_lt_of_le hle with rfl | hlt'
        · exact ⟨eq_false_of_ne_true hsmall, eq_false_of_ne_true hback⟩
        · exact hrun.goes_on i hlt' hlt
      · rw [show first + (steps + 1) = first + 1 + steps by omega]
        exact hrun.stops

end Run

/-! ## Over the reals -/

section Real

theorem le_real {a b : ℝ} : RealLine.le a b = true ↔ a ≤ b := decide_eq_true_iff

theorem isNaN_real (a : ℝ) : RealLine.isNaN a = false := by
  rw [RealLine.isNaN, le_real.mpr (le_refl a), Bool.not_true]

variable {T : Type} [Scalar T ℝ] [CosineTransform T] {s : Shape}

/-- The refinement ends at iterate `k`. -/
structure EndsAt (options : NewtonOptions ℝ) (x : s.Coefficients T) (k : Nat) : Prop where
  le_max : k ≤ options.maxIterations
  /-- Before it no residual was small enough, and every step made it smaller. -/
  improves : ∀ i < k, options.tolerance < normAt options.strategy x i ∧
    normAt options.strategy x (i + 1) < normAt options.strategy x i
  /-- The tolerance or the number of steps is reached, or one more step does not pay. -/
  stops : normAt options.strategy x k ≤ options.tolerance ∨ k = options.maxIterations ∨
    normAt options.strategy x k ≤ normAt options.strategy x (k + 1)

/-- The iterates that are computed by a refinement that ends at `k`: those up to `k`, and the
next one if it was tried. -/
def Computed (options : NewtonOptions ℝ) (x : s.Coefficients T) (k i : Nat) : Prop :=
  i ≤ k ∨ i = k + 1 ∧ k < options.maxIterations ∧
    options.tolerance < normAt options.strategy x k

variable {options : NewtonOptions ℝ} {x : s.Coefficients T} {i k : Nat}

theorem turnsBack_real {strategy : Strategy} :
    turnsBack strategy x i = true ↔ normAt strategy x i ≤ normAt strategy x (i + 1) := by
  rw [turnsBack, isNaN_real, Bool.false_or, le_real]

theorem EndsAt.of_runsTo
    (h : RunsTo options.strategy options.tolerance x 0 options.maxIterations k) :
    EndsAt options x k where
  le_max := h.le_last
  improves := by
    intro i hi
    obtain ⟨hlarge, hback⟩ := h.goes_on i (Nat.zero_le i) hi
    refine ⟨?_, ?_⟩
    · rw [← not_le, ← le_real, hlarge]
      exact Bool.false_ne_true
    · rw [← not_le, ← turnsBack_real, hback]
      exact Bool.false_ne_true
  stops := by
    rw [← le_real, ← turnsBack_real]
    exact h.stops

/-- Along the run the norms of the residuals fall. -/
theorem EndsAt.normAt_anti (h : EndsAt options x k) {j : Nat} (hij : i ≤ j) (hjk : j ≤ k) :
    normAt options.strategy x j ≤ normAt options.strategy x i := by
  induction j, hij using Nat.le_induction with
  | base => exact le_refl _
  | succ j _ ih => exact (h.improves j (by omega)).2.le.trans (ih (by omega))

/-- The iterate at the end is the best one computed. -/
theorem EndsAt.le_of_computed (h : EndsAt options x k) (hi : Computed options x k i) :
    normAt options.strategy x k ≤ normAt options.strategy x i := by
  rcases hi with hi | ⟨rfl, hmax, htolerance⟩
  · exact h.normAt_anti hi (Nat.le_refl k)
  · rcases h.stops with hsmall | hlast | hback
    · exact absurd hsmall (not_le.mpr htolerance)
    · omega
    · exact hback

end Real

/-! ## The reciprocal -/

section Reciprocal

variable {T : Type} [Scalar T ℝ] [CosineTransform T] [ValuedField T] {s : Shape}
  {options : NewtonOptions ℝ} {x : s.Coefficients T}

attribute [local instance] ExactRing.toCommRing

omit [CosineTransform T] in
theorem norm_zero : Shape.norm (0 : s.Coefficients T) = 0 := by
  rw [norm_eq_sum]
  refine Finset.sum_eq_zero fun i _ => ?_
  rw [Vector.get_eq_getElem, Vector.getElem_zero, SubmultiplicativeRing.magnitude_zero]

/-- The reciprocal of a constant leaves no residual. -/
theorem normAt_zero_of_isConstant (strategy : Strategy) (hx : isConstant x = true)
    (hc : constantTerm x ≠ 0) : normAt strategy x 0 = 0 := by
  have hproduct : multiply strategy x (newton strategy x 0) = s.constant 1 := by
    rw [newton, multiply_constant, eq_constant_of_isConstant hx, constantTerm_constant,
      scale_constant, ValuedField.mul_one_div hc]
  rw [normAt, residualNorm, residual, hproduct, sub_self, norm_zero]

theorem endsAt_of_isConstant (hx : isConstant x = true) (hc : constantTerm x ≠ 0) :
    EndsAt options x 0 where
  le_max := Nat.zero_le _
  improves := fun i hi => absurd hi (Nat.not_lt_zero i)
  stops := by
    rw [normAt_zero_of_isConstant _ hx hc]
    exact .inr (.inr (norm_nonneg _))

/-- Apart from the shortcuts the reciprocal is what the refinement of the first iterate
gives, if its residual is small enough. -/
theorem inverse_of_refine (hc : constantTerm x ≠ 0) (hx : ¬ isConstant x = true)
    {it : Iterate s T ℝ} (hit : refine options.strategy options.tolerance x
      options.maxIterations (Iterate.of options.strategy x (newton options.strategy x 0)) = it) :
    inverse options x = if it.norm < 1 then .ok it.y else .error (.notConverged it.norm) := by
  have hzero : isZero (constantTerm x) ≠ true := fun h => hc ((ExactRing.isZero_iff _).mp h)
  subst hit
  rw [inverse]
  simp only [if_neg hzero, if_neg hx, isNaN_real, Bool.false_or, le_real, ← not_lt, ite_not]
  rfl

/-- **The reciprocal is the iterate at the end of the run**, if the norm of its residual
is below one. -/
theorem inverse_eq_newton (options : NewtonOptions ℝ) (hc : constantTerm x ≠ 0) :
    ∃ k, EndsAt options x k ∧ inverse options x
      = if normAt options.strategy x k < 1 then .ok (newton options.strategy x k)
        else .error (.notConverged (normAt options.strategy x k)) := by
  by_cases hx : isConstant x = true
  · have hzero : isZero (constantTerm x) ≠ true := fun h => hc ((ExactRing.isZero_iff _).mp h)
    refine ⟨0, endsAt_of_isConstant hx hc, ?_⟩
    rw [normAt_zero_of_isConstant _ hx hc, if_pos one_pos, inverse]
    simp only [if_neg hzero, if_pos hx]
    rfl
  · obtain ⟨k, hrun, heq⟩ := refine_eq_iterate options.strategy options.tolerance x
      options.maxIterations 0
    rw [Nat.zero_add] at hrun
    exact ⟨k, EndsAt.of_runsTo hrun, inverse_of_refine hc hx heq⟩

/-! ## A dominant constant term -/

/-- The norm of what is not constant, relative to the constant term. -/
noncomputable def relativeSpread (x : s.Coefficients T) : ℝ :=
  (x.toList.tail.map Scalar.magnitude).sum / Scalar.magnitude (constantTerm x)

/-- The first residual is what is not constant, divided by the constant term. -/
theorem residual_newton_zero (strategy : Strategy) (hc : constantTerm x ≠ 0) :
    residual strategy x (newton strategy x 0)
      = scale (setConstantTerm x 0) (-(1 / constantTerm x)) := by
  refine Vector.ext fun i hi => ?_
  rw [residual, newton, multiply_constant, Vector.getElem_sub, scale, scale, Vector.getElem_map,
    Vector.getElem_map, getElem_constant, setConstantTerm, Vector.getElem_set]
  by_cases hzero : i = 0
  · subst hzero
    have hone : x[0] * (1 / constantTerm x) = 1 := ValuedField.mul_one_div hc
    rw [if_pos rfl, if_pos rfl, hone, zero_mul, sub_self]
  · rw [if_neg hzero, if_neg (Ne.symm hzero), zero_sub, mul_neg]

theorem normAt_zero (strategy : Strategy) (hc : constantTerm x ≠ 0) :
    normAt strategy x 0 = relativeSpread x := by
  have hlist : (setConstantTerm x (0 : T)).toList = 0 :: x.toList.tail := by
    rw [setConstantTerm, Vector.toList_set, toList_eq_cons x, List.set_cons_zero, List.tail_cons]
  rw [normAt, residualNorm, residual_newton_zero strategy hc, norm_scale, ValuedField.magnitude_neg,
    ValuedField.magnitude_one_div hc, norm_eq_sum_list, hlist, List.map_cons, List.sum_cons,
    SubmultiplicativeRing.magnitude_zero, zero_add, mul_one_div, relativeSpread]

/-- A constant term that outweighs all the others is enough for a reciprocal. -/
theorem inverse_of_relativeSpread (options : NewtonOptions ℝ) (hc : constantTerm x ≠ 0)
    (hq : relativeSpread x < 1) :
    ∃ k, EndsAt options x k ∧ inverse options x = .ok (newton options.strategy x k) := by
  obtain ⟨k, hend, heq⟩ := inverse_eq_newton options hc
  have hone : normAt options.strategy x k < 1 := by
    refine (hend.normAt_anti (Nat.zero_le k) (Nat.le_refl k)).trans_lt ?_
    rw [normAt_zero _ hc]
    exact hq
  exact ⟨k, hend, heq.trans (if_pos hone)⟩

/-- Without any step the reciprocal of the constant term is judged as it is. -/
theorem inverse_of_maxIterations_zero (hmax : options.maxIterations = 0)
    (hc : constantTerm x ≠ 0) :
    inverse options x = if relativeSpread x < 1 then .ok (s.constant (1 / constantTerm x))
      else .error (.notConverged (relativeSpread x)) := by
  obtain ⟨k, hend, heq⟩ := inverse_eq_newton options hc
  obtain rfl : k = 0 := Nat.le_zero.mp (hmax ▸ hend.le_max)
  rw [heq, normAt_zero _ hc, newton]

end Reciprocal

end Shape

/-! ## Constant terms that outweigh the rest, and one that does not -/

namespace Expansion

variable (T : Type) [Scalar T ℝ] [ValuedField T]

attribute [local instance] ExactRing.toCommRing

theorem constantTerm_ramp_ne_zero : (ramp T).constantTerm ≠ 0 := by
  intro h
  have hsize := ValuedField.magnitude_two T
  rw [show (1 + 1 : T) = 0 from h, SubmultiplicativeRing.magnitude_zero] at hsize
  exact two_ne_zero hsize.symm

theorem isConstant_ramp : (ramp T).isConstant = false := by
  refine List.all_eq_false.mpr ⟨1, List.mem_cons_self .., fun h => ?_⟩
  exact ValuedField.one_ne_zero T ((ExactRing.isZero_iff (1 : T)).mp h)

theorem relativeSpread_ramp : Shape.relativeSpread (ramp T).coeffs = 1 / 2 := by
  have htail : (ramp T).coeffs.toList.tail = [1, 0] := rfl
  have hconstant : Shape.constantTerm (ramp T).coeffs = 1 + 1 := rfl
  rw [Shape.relativeSpread, htail, hconstant, ValuedField.magnitude_two, List.map_cons,
    List.map_cons, ValuedField.magnitude_one, SubmultiplicativeRing.magnitude_zero]
  norm_num

theorem relativeSpread_plane : Shape.relativeSpread (plane T).coeffs = 2 := by
  have hconstant : Shape.constantTerm (plane T).coeffs = 1 := constantTerm_plane T
  rw [Shape.relativeSpread, toList_plane, hconstant, List.tail_cons, List.map_cons, List.map_cons,
    ValuedField.magnitude_one]
  norm_num

end Expansion

end TensorChebyshev
