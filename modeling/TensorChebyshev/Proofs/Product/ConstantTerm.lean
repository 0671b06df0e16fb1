import Mathlib
import TensorChebyshev.Proofs.Product.Algebra

/-!
# The constant term of a product

Two basis functions have a constant term in their product only if they are the
same. So the constant term of a truncated product is a weighted sum of products
of like coefficients, and truncation does not disturb it: what is cut off a
product has no like coefficient in a factor. In constant terms the truncated
product is associative although as a whole it is not.
-/

namespace TensorChebyshev

attribute [local instance] ExactRing.toCommRing

namespace Combination

/-- The indicator of the constant function among those of `n` variables. -/
def origin {T : Type} [Zero T] [One T] (n : Nat) (t : Tuple) : T :=
  if t = List.replicate n 0 then 1 else 0

section Origin

variable {T : Type} [Arithmetic T]

theorem origin_cons (n e : Nat) (t : Tuple) :
    (origin (n + 1) (e :: t) : T) = if e = 0 then origin n t else 0 := by
  rw [origin, origin, List.replicate_succ]
  by_cases he : e = 0
  · simp [he]
  · simp [he]

theorem cutAbove_origin (d n : Nat) : cutAbove d (origin n) = (origin n : Tuple → T) := by
  funext t
  rw [cutAbove, origin]
  by_cases ht : t = List.replicate n 0
  · have hdegree : totalDegree t ≤ d := by
      rw [ht, totalDegree_eq_sum, List.sum_replicate, nsmul_zero]
      exact Nat.zero_le d
    rw [if_pos hdegree]
  · rw [if_neg ht, ite_self]

end Origin

variable {T R : Type} [RealLine R] [Scalar T R] [ExactRing T]

/-- **A product of basis functions has a constant term only if they are the same.** -/
theorem eval_branchTerms_origin (hhalf : (Scalar.half : T) + Scalar.half = 1) {t u : Tuple}
    {n : Nat} (ht : t.length = n) (hu : u.length = n) :
    (branchTerms t u).eval (origin n) = if t = u then (halvedWeight (splits t t) : T) else 0 := by
  subst ht
  induction t generalizing u with
  | nil =>
      obtain rfl := List.length_eq_zero_iff.mp hu
      rw [eval_branchTerms_nil, if_pos rfl]
      rfl
  | cons x t ih =>
      match u, hu with
      | y :: u, hu =>
        have hinner := ih (Nat.succ.inj hu)
        have hfront : ∀ e : Nat, (branchTerms t u).eval (fun v => origin (t.length + 1) (e :: v))
            = if e = 0 then (branchTerms t u).eval (origin t.length) else (0 : T) := by
          intro e
          simp only [origin_cons]
          by_cases he : e = 0
          · simp only [if_pos he]
          · simp only [if_neg he, eval_zero]
        rw [eval_branchTerms_cons hhalf, List.length_cons, hfront, hfront, hinner]
        by_cases hxy : x = y
        · subst hxy
          have hdistance : distance x x = 0 := by
            rw [distance]
            omega
          rw [if_pos hdistance]
          by_cases hx : x = 0
          · subst hx
            rw [if_pos rfl, ← mul_two, mul_left_comm, mul_two, hhalf, mul_one]
            simp [splits]
          · have hsum : ¬ x + x = 0 := by omega
            rw [if_neg hsum, zero_add]
            by_cases htu : t = u
            · subst htu
              rw [if_pos rfl, if_pos rfl, splits, if_neg (by omega), Nat.add_comm, halvedWeight,
                mul_comm]
            · rw [if_neg htu, mul_zero, if_neg fun h => htu (List.cons.inj h).2]
        · have hsum : ¬ x + y = 0 := by omega
          have hdistance : ¬ distance x y = 0 := by
            rw [distance]
            omega
          rw [if_neg hsum, if_neg hdistance, add_zero, mul_zero,
            if_neg fun h => hxy (List.cons.inj h).1]

end Combination

namespace Shape

open Combination (cutAbove branchTerms origin)

section Read

variable {T : Type} [Arithmetic T] [ExactRing T] {s : Shape}

omit [Arithmetic T] [ExactRing T] in
theorem tupleAt_zero (s : Shape) : s.tupleAt 0 = List.replicate s.nvar 0 := by
  obtain ⟨rest, hrest⟩ := graded_eq_cons s.nvar s.degree
  apply GradedBasis.tupleAt_of_getElem?
  rw [GradedBasis.tuples_getElem?, hrest, List.getElem?_cons_zero]

theorem constantTerm_eq_eval (v : s.Coefficients T) :
    constantTerm v = (terms v).eval (origin s.nvar) := by
  rw [constantTerm, ← coefficient_terms v s.size_pos, tupleAt_zero]
  rfl

theorem constantTerm_sub (v w : s.Coefficients T) :
    constantTerm (v - w) = constantTerm v - constantTerm w := by
  rw [constantTerm_eq_eval, eval_sub, ← constantTerm_eq_eval, ← constantTerm_eq_eval]

end Read

variable {T R : Type} [RealLine R] [Scalar T R] [CosineTransform T] [ExactRing T] {s : Shape}

/-- The constant term of a product, coefficient by coefficient. -/
theorem constantTerm_multiply (hhalf : (Scalar.half : T) + Scalar.half = 1)
    (a b : s.Coefficients T) :
    constantTerm (multiply .direct a b)
      = ∑ i : Fin s.size,
          a.get i * b.get i * halvedWeight (splits (s.tupleAt i) (s.tupleAt i)) := by
  have hlen : ∀ i : Fin s.size, (s.tupleAt i).length = s.nvar := fun i =>
    (GradedBasis.tupleAt_mem i.isLt).1
  rw [constantTerm_eq_eval, eval_multiply, Combination.cutAbove_origin, eval_terms]
  refine Finset.sum_congr rfl fun i _ => ?_
  rw [mul_assoc, eval_terms]
  congr 1
  rw [Finset.sum_eq_single i]
  · rw [Combination.eval_branchTerms_origin hhalf (hlen i) (hlen i), if_pos rfl]
  · intro j _ hj
    have hne : ¬ s.tupleAt i = s.tupleAt j := fun h =>
      hj (Fin.ext ((GradedBasis.tupleAt_inj i.isLt j.isLt).mp h)).symm
    rw [Combination.eval_branchTerms_origin hhalf (hlen i) (hlen j), if_neg hne, mul_zero]
  · exact fun h => absurd (Finset.mem_univ _) h

/-- What is cut off a product does not show in a constant term. -/
theorem constantTerm_multiply_multiply (hhalf : (Scalar.half : T) + Scalar.half = 1)
    (a b c : s.Coefficients T) :
    constantTerm (multiply .direct (multiply .direct a b) c)
      = (Combination.product (Combination.product (terms a) (terms b)) (terms c)).eval
          (origin s.nvar) := by
  rw [constantTerm_eq_eval, eval_multiply, Combination.cutAbove_origin, Combination.eval_product_eq,
    Combination.eval_eval_comm (terms (multiply .direct a b)),
    Combination.eval_eval_comm (Combination.product (terms a) (terms b))]
  refine Combination.eval_congr fun x hx => ?_
  rw [eval_multiply_direct]
  have hx' : x.1.length = s.nvar := length_of_mem_terms hx
  have hdegree : totalDegree x.1 ≤ s.degree := degree_of_mem_terms hx
  refine Combination.eval_congr fun y hy => ?_
  obtain ⟨a', ha', b', hb', hbranch⟩ := Combination.mem_product hy
  have ha := length_of_mem_terms ha'
  have hb := length_of_mem_terms hb'
  have hlen : y.1.length = s.nvar :=
    (length_and_degree_of_mem_branches (ha.trans hb.symm) hbranch).1.trans ha
  rw [cutAbove]
  by_cases hy : totalDegree y.1 ≤ s.degree
  · rw [if_pos hy]
  · -- a tuple of a higher degree is none of the factor
    have hne : ¬ y.1 = x.1 := fun h => hy (h ▸ hdegree)
    rw [if_neg hy, Combination.eval_branchTerms_origin hhalf hlen hx', if_neg hne]

/-- **In constant terms the truncated product is associative.** -/
theorem constantTerm_multiply_assoc (hhalf : (Scalar.half : T) + Scalar.half = 1)
    (a b c : s.Coefficients T) :
    constantTerm (multiply .direct (multiply .direct a b) c)
      = constantTerm (multiply .direct a (multiply .direct b c)) := by
  have hlen : ∀ v : s.Coefficients T, ∀ x ∈ terms v, x.1.length = s.nvar := fun v x hx =>
    length_of_mem_terms hx
  rw [multiply_comm a (multiply _ _ _), constantTerm_multiply_multiply hhalf,
    constantTerm_multiply_multiply hhalf, Combination.eval_product_assoc hhalf (hlen a) (hlen b)
      (hlen c), Combination.eval_product_comm]

end Shape

end TensorChebyshev
