import Mathlib
import TensorChebyshev.Proofs.Product.Algebra
import TensorChebyshev.Proofs.Scalar.Change

/-!
# Products under a change of scalars

The truncated product skips zero coefficients and only scales by constant
factors, and a change of scalars may make a zero or a constant of what was none.
But whichever shortcut is taken, every coefficient of the product is that of the
product of the combinations, in which nothing is skipped, and there a change of
scalars goes through.
-/

namespace TensorChebyshev

variable {T T' R : Type} [RealLine R] [Scalar T R] [Scalar T' R] {φ : T → T'}

/-! ## Combinations -/

namespace Combination

/-- The same tuples with changed coefficients. -/
def change (φ : T → T') (l : Combination T) : Combination T' := l.map fun c => (c.1, φ c.2)

theorem map_halvedWeight (h : ScalarMap φ) (n : Nat) : φ (halvedWeight n) = halvedWeight n := by
  induction n with
  | zero => exact h.map_one
  | succ n ih => rw [halvedWeight, halvedWeight, h.map_mul, ih, h.map_half]

theorem change_product (h : ScalarMap φ) (l m : Combination T) :
    change φ (product l m) = product (change φ l) (change φ m) := by
  simp [change, product, List.map_flatMap, List.flatMap_map, Function.comp_def, h.map_mul,
    map_halvedWeight h]

omit [RealLine R] in
theorem map_eval (h : ScalarMap φ) (l : Combination T) (f : Tuple → T) :
    φ (l.eval f) = (change φ l).eval fun t => φ (f t) := by
  induction l with
  | nil => exact h.map_zero
  | cons c l ih =>
      rw [eval_cons, h.map_add, h.map_mul, ih]
      exact (eval_cons (c.1, φ c.2) (change φ l) fun t => φ (f t)).symm

omit [RealLine R] in
theorem map_coefficient (h : ScalarMap φ) (l : Combination T) (t : Tuple) :
    φ (l.coefficient t) = (change φ l).coefficient t := by
  rw [coefficient, map_eval h, coefficient]
  congr 1
  funext u
  by_cases hu : u = t
  · rw [if_pos hu, if_pos hu, h.map_one]
  · rw [if_neg hu, if_neg hu, h.map_zero]

end Combination

/-! ## Coefficient vectors -/

namespace Shape

variable {s : Shape}

omit [RealLine R] [Scalar T R] [Scalar T' R] in
theorem terms_map (v : s.Coefficients T) (φ : T → T') :
    terms (v.map φ) = (terms v).change φ := by
  rw [terms, terms, GradedBasis.labelled, GradedBasis.labelled, Vector.toList_map,
    List.zip_map_right]
  rfl

omit [RealLine R] in
theorem map_scale (h : ScalarMap φ) (v : s.Coefficients T) (c : T) :
    (scale v c).map φ = scale (v.map φ) (φ c) := by
  refine Vector.ext fun i hi => ?_
  simp [scale, h.map_mul]

omit [RealLine R] in
theorem map_subConstant (h : ScalarMap φ) (v : s.Coefficients T) (c : T) :
    (subConstant v c).map φ = subConstant (v.map φ) (φ c) := by
  have hpos := s.size_pos
  have hterm : φ (constantTerm v - c) = constantTerm (v.map φ) - φ c := by
    rw [h.map_sub, constantTerm, constantTerm, Vector.getElem_map]
  refine Vector.ext fun i hi => ?_
  show ((v.set 0 (constantTerm v - c) hpos).map φ)[i]
    = ((v.map φ).set 0 (constantTerm (v.map φ) - φ c) hpos)[i]
  rw [Vector.getElem_map, Vector.getElem_set, Vector.getElem_set, ← hterm]
  by_cases hzero : 0 = i
  · rw [if_pos hzero, if_pos hzero]
  · rw [if_neg hzero, if_neg hzero, Vector.getElem_map]

omit [RealLine R] in
theorem map_constant (h : ScalarMap φ) (c : T) : (s.constant c).map φ = s.constant (φ c) := by
  refine Vector.ext fun i hi => ?_
  rw [Vector.getElem_map, getElem_constant, getElem_constant]
  by_cases hzero : i = 0
  · rw [if_pos hzero, if_pos hzero]
  · rw [if_neg hzero, if_neg hzero, h.map_zero]

variable [CosineTransform T] [CosineTransform T'] [ExactRing T] [ExactRing T']

/-- **The truncated product goes through a change of scalars**, whatever shortcuts the two
products take. -/
theorem map_multiply (h : ScalarMap φ) (a b : s.Coefficients T) :
    (multiply .direct a b).map φ = multiply .direct (a.map φ) (b.map φ) := by
  refine Vector.ext fun i hi => ?_
  have hdegree := (GradedBasis.tupleAt_mem hi).2
  calc ((multiply .direct a b).map φ)[i]
      = φ ((terms (multiply .direct a b)).coefficient (s.tupleAt i)) := by
        rw [Vector.getElem_map, coefficient_terms _ hi]
    _ = φ ((Combination.product (terms a) (terms b)).coefficient (s.tupleAt i)) := by
        rw [coefficient_multiply_direct a b hdegree]
    _ = (Combination.product (terms (a.map φ)) (terms (b.map φ))).coefficient (s.tupleAt i) := by
        rw [Combination.map_coefficient h, Combination.change_product h, terms_map, terms_map]
    _ = (multiply .direct (a.map φ) (b.map φ))[i] := by
        rw [← coefficient_multiply_direct _ _ hdegree, coefficient_terms _ hi]

/-- The loop of the power takes the same course, since it looks at the exponent only. -/
theorem map_powerLoop (h : ScalarMap φ) (acc base : s.Coefficients T) (n : Nat) :
    (powerLoop acc base n).map φ = powerLoop (acc.map φ) (base.map φ) n := by
  induction n using Nat.strong_induction_on generalizing acc base with
  | h n ih =>
      rw [powerLoop, powerLoop.eq_def (acc.map φ)]
      by_cases hzero : n = 0
      · rw [if_pos hzero, if_pos hzero]
      rw [if_neg hzero, if_neg hzero]
      have hstep : (if n % 2 = 1 then multiply .standard acc base else acc).map φ
          = if n % 2 = 1 then multiply .standard (acc.map φ) (base.map φ) else acc.map φ := by
        by_cases hodd : n % 2 = 1
        · rw [if_pos hodd, if_pos hodd]
          exact map_multiply h acc base
        · rw [if_neg hodd, if_neg hodd]
      simp only
      by_cases hlast : n / 2 = 0
      · rw [if_pos hlast, if_pos hlast, hstep]
      · rw [if_neg hlast, if_neg hlast, ih (n / 2) (by omega), hstep]
        exact congrArg (powerLoop _ · _) (map_multiply h base base)

theorem map_power (h : ScalarMap φ) (v : s.Coefficients T) (n : Nat) :
    (power v n).map φ = power (v.map φ) n := by
  rw [power, map_powerLoop h, map_constant h, h.map_one, power]

end Shape

end TensorChebyshev
