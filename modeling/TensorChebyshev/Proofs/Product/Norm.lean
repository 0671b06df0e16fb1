import Mathlib
import TensorChebyshev.Proofs.Product.Algebra
import TensorChebyshev.Proofs.Product.Branches
import TensorChebyshev.Proofs.Scalar.Magnitude

/-!
# Norms of products

The norm is the sum of the magnitudes of the coefficients, and so is that of a
combination, where a tuple may occur more than once. Collecting the terms of a
combination in a vector makes the norm no larger, and a pair of terms has `2 ^ h`
branches of a weight that is halved `h` times. Hence the norm of a truncated
product is at most the product of the norms.
-/

namespace TensorChebyshev

open Combination (cutAbove)

variable {T : Type} [Scalar T ℝ] [SubmultiplicativeRing T]

attribute [local instance] ExactRing.toCommRing

theorem magnitude_mul_halvedWeight (x : T) (h : Nat) :
    Scalar.magnitude (x * halvedWeight h) = Scalar.magnitude x / 2 ^ h := by
  induction h with
  | zero => rw [halvedWeight, mul_one, pow_zero, div_one]
  | succ h ih =>
      rw [halvedWeight, ← mul_assoc, mul_comm, SubmultiplicativeRing.magnitude_half_mul, ih, pow_succ,
        div_div]

/-! ## Combinations -/

namespace Combination

/-- The sum of the magnitudes of all terms. -/
def norm (l : Combination T) : ℝ := (l.map fun c => Scalar.magnitude c.2).sum

omit [SubmultiplicativeRing T] in
theorem norm_cons (c : Tuple × T) (l : Combination T) :
    norm (c :: l) = Scalar.magnitude c.2 + norm l := List.sum_cons

/-- The magnitude of a coefficient is bounded by the terms that it collects. -/
theorem magnitude_coefficient_cons_le (c : Tuple × T) (l : Combination T) (t : Tuple) :
    Scalar.magnitude (coefficient (c :: l) t)
      ≤ (if c.1 = t then Scalar.magnitude c.2 else 0) + Scalar.magnitude (coefficient l t) := by
  have hterm : Scalar.magnitude (c.2 * if c.1 = t then 1 else 0)
      = if c.1 = t then Scalar.magnitude c.2 else 0 := by
    split
    · rw [mul_one]
    · rw [mul_zero, SubmultiplicativeRing.magnitude_zero]
  rw [coefficient, eval_cons, ← coefficient, ← hterm]
  exact SubmultiplicativeRing.magnitude_add_le _ _

/-- Over different tuples the coefficients are bounded by the norm. -/
theorem sum_magnitude_coefficient_le {n : Nat} {t : Fin n → Tuple} (ht : Function.Injective t)
    (l : Combination T) : ∑ i, Scalar.magnitude (l.coefficient (t i)) ≤ l.norm := by
  induction l with
  | nil =>
      refine (Finset.sum_eq_zero fun i _ => ?_).le
      exact SubmultiplicativeRing.magnitude_zero
  | cons c l ih =>
      -- the first term counts at one tuple at most
      have hfirst : ∑ i, (if c.1 = t i then Scalar.magnitude c.2 else 0)
          ≤ Scalar.magnitude c.2 := by
        by_cases hc : ∃ k, c.1 = t k
        · obtain ⟨k, hk⟩ := hc
          have hsame : ∀ i, (c.1 = t i) = (k = i) := fun i => by
            rw [hk, eq_iff_iff, ht.eq_iff]
          simp only [hsame]
          rw [Finset.sum_ite_eq, if_pos (Finset.mem_univ k)]
        · refine (Finset.sum_eq_zero fun i _ => ?_).trans_le (SubmultiplicativeRing.magnitude_nonneg c.2)
          exact if_neg fun h => hc ⟨i, h⟩
      calc ∑ i, Scalar.magnitude (coefficient (c :: l) (t i))
          ≤ ∑ i, ((if c.1 = t i then Scalar.magnitude c.2 else 0)
              + Scalar.magnitude (coefficient l (t i))) :=
            Finset.sum_le_sum fun i _ => magnitude_coefficient_cons_le c l (t i)
        _ ≤ norm (c :: l) := by
            rw [Finset.sum_add_distrib, norm_cons]
            exact add_le_add hfirst ih

/-- The branches of a pair share its magnitude. -/
theorem norm_pair (x y : Tuple × T) :
    norm ((branches x.1 y.1).map fun t => (t, x.2 * y.2 * halvedWeight (splits x.1 y.1)))
      = Scalar.magnitude (x.2 * y.2) := by
  have hpow : (2 : ℝ) ^ splits x.1 y.1 ≠ 0 := pow_ne_zero _ two_ne_zero
  rw [norm, List.map_map]
  show ((branches x.1 y.1).map fun _ =>
    Scalar.magnitude (x.2 * y.2 * halvedWeight (splits x.1 y.1))).sum = _
  rw [List.map_const', List.sum_replicate, length_branches, magnitude_mul_halvedWeight,
    nsmul_eq_mul, Nat.cast_pow, Nat.cast_ofNat, mul_div_cancel₀ _ hpow]

omit [SubmultiplicativeRing T] in
theorem norm_flatMap {α : Type} (k : List α) (f : α → Combination T) :
    norm (k.flatMap f) = (k.map fun x => norm (f x)).sum := by
  rw [norm, List.map_flatMap, List.flatMap_def, List.sum_flatten, List.map_map]
  rfl

theorem norm_product_le (l m : Combination T) : (product l m).norm ≤ l.norm * m.norm := by
  have hinner : ∀ x : Tuple × T,
      (m.map fun y => Scalar.magnitude (x.2 * y.2)).sum ≤ Scalar.magnitude x.2 * m.norm := by
    intro x
    rw [norm, ← List.sum_map_mul_left]
    exact List.sum_le_sum fun y _ => SubmultiplicativeRing.magnitude_mul_le x.2 y.2
  rw [product, norm_flatMap, norm, ← List.sum_map_mul_right]
  refine List.sum_le_sum fun x _ => ?_
  rw [norm_flatMap]
  simp only [norm_pair]
  exact hinner x

end Combination

/-! ## Vectors -/

namespace Shape

variable {s : Shape}

omit [SubmultiplicativeRing T] in
theorem norm_eq_sum_list (v : s.Coefficients T) :
    Shape.norm v = (v.toList.map Scalar.magnitude).sum := by
  have hfold : ∀ (l : List T) (r : ℝ),
      l.foldl (fun acc x => acc + Scalar.magnitude x) r = r + (l.map Scalar.magnitude).sum := by
    intro l
    induction l with
    | nil => simp
    | cons x l ih =>
        intro r
        rw [List.foldl_cons, ih, List.map_cons, List.sum_cons, add_assoc]
  rw [Shape.norm, ← Vector.foldl_toList, hfold, zero_add]

omit [SubmultiplicativeRing T] in
theorem norm_eq_norm_terms (v : s.Coefficients T) : Shape.norm v = (terms v).norm := by
  have hlen : v.toList.length ≤ (graded s.nvar s.degree).length := by
    rw [v.length_toList, GradedBasis.size_eq]
  have hzip := congrArg (fun l => (l.map Scalar.magnitude).sum) (List.map_snd_zip hlen)
  rw [List.map_map] at hzip
  rw [norm_eq_sum_list, ← hzip, Combination.norm, terms, GradedBasis.labelled_eq_zip]
  rfl

omit [SubmultiplicativeRing T] in
theorem norm_eq_sum (v : s.Coefficients T) :
    Shape.norm v = ∑ i : Fin s.size, Scalar.magnitude (v.get i) := by
  rw [norm_eq_norm_terms, terms_eq_ofFn, Combination.norm, List.map_ofFn, List.sum_ofFn]
  rfl

/-- A vector that collects a combination, cut off above the degree, has no larger norm. -/
theorem norm_le_of_eval {v : s.Coefficients T} {l : Combination T}
    (h : ∀ φ, (terms v).eval φ = l.eval (cutAbove s.degree φ)) : Shape.norm v ≤ l.norm := by
  have hinj : Function.Injective fun i : Fin s.size => s.tupleAt i := fun i j hij =>
    Fin.ext ((GradedBasis.tupleAt_inj i.isLt j.isLt).mp hij)
  have hget : ∀ i : Fin s.size, v.get i = l.coefficient (s.tupleAt i) := fun i => by
    rw [Vector.get_eq_getElem, ← coefficient_terms v i.isLt, Combination.coefficient, h,
      Combination.coefficient_cutAbove _ (GradedBasis.tupleAt_mem i.isLt).2]
  rw [norm_eq_sum]
  simp only [hget]
  exact Combination.sum_magnitude_coefficient_le hinj l

omit [SubmultiplicativeRing T] in
theorem norm_scale [ValuedField T] (v : s.Coefficients T) (c : T) :
    Shape.norm (scale v c) = Shape.norm v * Scalar.magnitude c := by
  rw [norm_eq_sum, norm_eq_sum, Finset.sum_mul]
  refine Finset.sum_congr rfl fun i _ => ?_
  rw [scale, Vector.get_map, ValuedField.magnitude_mul]

theorem norm_nonneg (v : s.Coefficients T) : 0 ≤ Shape.norm v := by
  rw [norm_eq_sum]
  exact Finset.sum_nonneg fun i _ => SubmultiplicativeRing.magnitude_nonneg _

variable [CosineTransform T]

/-- **The norm of a truncated product is at most the product of the norms.** -/
theorem norm_multiply_le (a b : s.Coefficients T) :
    Shape.norm (multiply .direct a b) ≤ Shape.norm a * Shape.norm b := by
  rw [norm_eq_norm_terms a, norm_eq_norm_terms b]
  exact (norm_le_of_eval (eval_multiply_direct a b)).trans (Combination.norm_product_le _ _)

end Shape

/-! ## Expansions -/

namespace Expansion

/-- **The norm is an algebra norm.** Expansions of one shape have a product by direct
multiplication, and its norm is at most the product of their norms. -/
theorem multiply_direct_submultiplicative [CosineTransform T] (a b : Expansion T)
    (h : a.shape.Alike b.shape) :
    ∃ r : Expansion T, multiply .direct a b = .ok r ∧ r.norm ≤ a.norm * b.norm := by
  have hnorm : Shape.norm (b.coeffs.cast h.size_eq.symm : a.shape.Coefficients T) = b.norm := by
    rw [Shape.norm_eq_norm_terms, Shape.terms_cast h, norm, Shape.norm_eq_norm_terms]
  refine ⟨_, multiply_of_alike .direct a b h, ?_⟩
  rw [← hnorm]
  exact Shape.norm_multiply_le a.coeffs _

omit [SubmultiplicativeRing T] in
theorem norm_plane (hone : Scalar.magnitude (1 : T) = 1) : (plane T).norm = 3 := by
  rw [norm, Shape.norm_eq_sum_list, toList_plane]
  simp only [List.map_cons, List.map_nil, List.sum_cons, List.sum_nil, hone]
  norm_num

attribute [local instance] CosineTransform.bySums in
/-- The square of the plane `1 + x + y`, with real, complex and dual coefficients. -/
theorem multiply_direct_submultiplicative_plane :
    (∃ r : Expansion ℝ, multiply .direct (plane ℝ) (plane ℝ) = .ok r ∧ r.norm ≤ 9) ∧
    (∃ r : Expansion (Complex ℝ),
      multiply .direct (plane (Complex ℝ)) (plane (Complex ℝ)) = .ok r ∧ r.norm ≤ 9) ∧
    ∃ r : Expansion (Dual ℝ),
      multiply .direct (plane (Dual ℝ)) (plane (Dual ℝ)) = .ok r ∧ r.norm ≤ 9 := by
  have hnine : (3 : ℝ) * 3 = 9 := by norm_num
  have hdual : Scalar.magnitude (1 : Dual ℝ) = (1 : ℝ) := by
    show |(1 : ℝ)| + |(0 : ℝ)| = 1
    rw [abs_one, abs_zero, add_zero]
  refine ⟨?_, ?_, ?_⟩
  · obtain ⟨r, hr, hle⟩ := multiply_direct_submultiplicative (plane ℝ) (plane ℝ) ⟨rfl, rfl⟩
    rw [norm_plane ValuedField.magnitude_one, hnine] at hle
    exact ⟨r, hr, hle⟩
  · obtain ⟨r, hr, hle⟩ :=
      multiply_direct_submultiplicative (plane (Complex ℝ)) (plane (Complex ℝ)) ⟨rfl, rfl⟩
    rw [norm_plane ValuedField.magnitude_one, hnine] at hle
    exact ⟨r, hr, hle⟩
  · obtain ⟨r, hr, hle⟩ :=
      multiply_direct_submultiplicative (plane (Dual ℝ)) (plane (Dual ℝ)) ⟨rfl, rfl⟩
    rw [norm_plane hdual, hnine] at hle
    exact ⟨r, hr, hle⟩

end Expansion

end TensorChebyshev
