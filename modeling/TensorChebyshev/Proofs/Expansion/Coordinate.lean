import Mathlib
import TensorChebyshev.Proofs.Product.Algebra

/-!
# Coordinate functions

The coordinate function of a variable stands behind the constant function, in
the order of the variables. Multiplying a basis function without this variable
by the Chebyshev polynomials of the coordinate puts the exponent in its place,
as long as the degree has room.
-/

namespace TensorChebyshev

open Combination (cutAbove branchTerms)

/-! ## The tuple of a coordinate -/

/-- The exponents of the coordinate function of variable `v` among `n` variables. -/
def unitTuple (n v : Nat) : Tuple := List.replicate v 0 ++ 1 :: List.replicate (n - v - 1) 0

theorem length_unitTuple {n v : Nat} (h : v < n) : (unitTuple n v).length = n := by
  simp [unitTuple]
  omega

theorem totalDegree_replicate_zero (n : Nat) : totalDegree (List.replicate n 0) = 0 := by
  rw [totalDegree_eq_sum, List.sum_replicate, nsmul_zero]

theorem totalDegree_unitTuple (n v : Nat) : totalDegree (unitTuple n v) = 1 := by
  rw [unitTuple, totalDegree_append, totalDegree, totalDegree_replicate_zero,
    totalDegree_replicate_zero]

theorem rank_replicate_zero (n : Nat) : rank (List.replicate n 0) = 0 := by
  induction n with
  | zero => rfl
  | succ n ih => rw [List.replicate_succ, rank, totalDegree_replicate_zero, below, ih]

/-- One tuple stands before those of degree one, and they follow by their variables. -/
theorem rank_unitTuple (n v : Nat) : rank (unitTuple n v) = 1 + v := by
  have hone : ∀ (m : Nat), below m 1 = 1 := fun m => by rw [below, atMost_zero_right]
  have hrank : ∀ m : Nat, rank (List.replicate v 0 ++ 1 :: List.replicate m 0) = 1 + v := by
    intro m
    induction v with
    | zero =>
        rw [List.replicate_zero, List.nil_append, rank, totalDegree_replicate_zero, hone,
          rank_replicate_zero]
    | succ v ih =>
        rw [List.replicate_succ, List.cons_append, rank, totalDegree_append, totalDegree,
          totalDegree_replicate_zero, totalDegree_replicate_zero, hone, ih]
        omega
  exact hrank _

theorem GradedBasis.tuples_coordinate {b : GradedBasis} {v : Nat} (hv : v < b.nvar)
    (hd : 1 ≤ b.degree) : b.tuples[1 + v]? = some (unitTuple b.nvar v) := by
  have hdegree : totalDegree (unitTuple b.nvar v) ≤ b.degree := by
    rw [totalDegree_unitTuple]
    exact hd
  have hplace := getElem?_graded_rank hdegree
  rw [length_unitTuple hv, rank_unitTuple] at hplace
  rw [tuples_getElem?, hplace]

/-! ## Single terms -/

namespace Shape

section Term

variable {T : Type} [Arithmetic T] {s : Shape}

/-- The vector holds the basis function of `t` times `c`, and nothing else. -/
def IsTerm (v : s.Coefficients T) (t : Tuple) (c : T) : Prop :=
  ∀ φ : Tuple → T, (terms v).eval φ = c * φ t

variable (T) in
/-- The coefficients of the coordinate function of a variable. -/
def coordinateVector (s : Shape) (v : Nat) : s.Coefficients T :=
  s.zeros.setIfInBounds (1 + v) 1

variable [ExactRing T]

attribute [local instance] ExactRing.toCommRing

theorem isTerm_constant (c : T) : IsTerm (s.constant c) (List.replicate s.nvar 0) c :=
  eval_constant c

theorem isTerm_coordinateVector {v : Nat} (hv : v < s.nvar) (hd : 1 ≤ s.degree) :
    IsTerm (s.coordinateVector T v) (unitTuple s.nvar v) 1 := by
  have htuple := GradedBasis.tuples_coordinate hv hd
  obtain ⟨hlt, _⟩ := Array.getElem?_eq_some_iff.mp htuple
  intro φ
  rw [eval_terms, Finset.sum_eq_single (⟨1 + v, hlt⟩ : Fin s.size)]
  · rw [GradedBasis.tupleAt_of_getElem? htuple, Vector.get_eq_getElem, coordinateVector,
      Vector.getElem_setIfInBounds_self]
  · intro i _ hi
    have hne : 1 + v ≠ i.val := fun h => hi (Fin.ext h.symm)
    rw [Vector.get_eq_getElem, coordinateVector, Vector.getElem_setIfInBounds_ne _ hne, zeros,
      Vector.getElem_replicate, zero_mul]
  · exact fun h => absurd (Finset.mem_univ _) h

/-- At a point the basis function of a coordinate is that coordinate. -/
theorem tensorChebyshev_unitTuple {n v : Nat} {p : List T} (hv : v < n) (hp : p.length = n) :
    tensorChebyshev (unitTuple n v) p = p.getD v 0 := by
  have hread : ∀ (v m : Nat) (p : List T), v < p.length →
      tensorChebyshev (List.replicate v 0 ++ 1 :: List.replicate m 0) p = p.getD v 0 := by
    intro v m
    induction v with
    | zero =>
        intro p hlt
        obtain ⟨x, p, rfl⟩ := List.exists_cons_of_length_pos hlt
        rw [List.replicate_zero, List.nil_append, tensorChebyshev, tensorChebyshev_replicate_zero,
          mul_one, chebyshev, List.getD_cons_zero]
    | succ v ih =>
        intro p hlt
        obtain ⟨x, p, rfl⟩ := List.exists_cons_of_length_pos (Nat.zero_lt_of_lt hlt)
        rw [List.replicate_succ, List.cons_append, tensorChebyshev, chebyshev, one_mul,
          ih p (Nat.lt_of_succ_lt_succ hlt), List.getD_cons_succ]
  exact hread v _ p (by rwa [hp])

theorem value_coordinateVector {v : Nat} (hv : v < s.nvar) (hd : 1 ≤ s.degree) {p : List T}
    (hp : p.length = s.nvar) : value (s.coordinateVector T v) p = p.getD v 0 := by
  rw [value_eq_eval, isTerm_coordinateVector hv hd, one_mul, tensorChebyshev_unitTuple hv hp]

end Term

/-! ## Multiplication by a coordinate -/

section Multiply

variable {T R : Type} [RealLine R] [Scalar T R] [ExactRing T]

attribute [local instance] ExactRing.toCommRing

theorem half_mul_add_self (hhalf : (Scalar.half : T) + Scalar.half = 1) (a : T) :
    Scalar.half * (a + a) = a := by
  rw [mul_add, ← add_mul, hhalf, one_mul]

theorem eval_branchTerms_zero (q : Tuple) (φ : Tuple → T) :
    (branchTerms q (List.replicate q.length 0)).eval φ = φ q := by
  rw [Combination.eval_branchTerms, branches_replicate_zero, splits_replicate_zero, halvedWeight,
    List.map_singleton, List.sum_singleton, one_mul]

/-- The product with a coordinate moves one exponent up and down. -/
theorem eval_branchTerms_unit (hhalf : (Scalar.half : T) + Scalar.half = 1) (r k : Nat)
    (q : Tuple) (φ : Tuple → T) :
    (branchTerms (List.replicate r 0 ++ k :: q)
        (List.replicate r 0 ++ 1 :: List.replicate q.length 0)).eval φ
      = Scalar.half * (φ (List.replicate r 0 ++ (k + 1) :: q)
        + φ (List.replicate r 0 ++ distance k 1 :: q)) := by
  induction r generalizing φ with
  | zero =>
      rw [List.replicate_zero, List.nil_append, List.nil_append,
        Combination.eval_branchTerms_cons hhalf, eval_branchTerms_zero, eval_branchTerms_zero]
      rfl
  | succ r ih =>
      rw [List.replicate_succ, List.cons_append, List.cons_append,
        Combination.eval_branchTerms_cons hhalf, ih, ih]
      exact half_mul_add_self hhalf _

variable [CosineTransform T] {s : Shape} {a x : s.Coefficients T} {r : Nat} {q : Tuple} {c : T}

/-- **Chebyshev polynomials of a coordinate** put the exponent into a term. -/
theorem IsTerm.chebyshev (hhalf : (Scalar.half : T) + Scalar.half = 1)
    (hx : IsTerm x (List.replicate r 0 ++ 1 :: List.replicate q.length 0) 1)
    (ha : IsTerm a (List.replicate r 0 ++ 0 :: q) c) (k : Nat)
    (hk : k + totalDegree q ≤ s.degree) :
    IsTerm (TensorChebyshev.chebyshev (multiplication x) k a) (List.replicate r 0 ++ k :: q) c := by
  have hdegree : ∀ j : Nat, totalDegree (List.replicate r 0 ++ j :: q) = j + totalDegree q := by
    intro j
    rw [totalDegree_append, totalDegree_replicate_zero, totalDegree, Nat.zero_add]
  -- a product that is not cut off
  have hproduct : ∀ (j : Nat) (b : s.Coefficients T), j + 1 + totalDegree q ≤ s.degree →
      IsTerm b (List.replicate r 0 ++ j :: q) c → ∀ φ : Tuple → T,
      (terms (multiply .direct b x)).eval φ
        = c * (Scalar.half * (φ (List.replicate r 0 ++ (j + 1) :: q)
          + φ (List.replicate r 0 ++ distance j 1 :: q))) := by
    intro j b hj hb φ
    have hdist : distance j 1 ≤ j + 1 := distance_le j 1
    rw [eval_multiply, hb, hx, one_mul, eval_branchTerms_unit hhalf, cutAbove, cutAbove,
      if_pos (by rw [hdegree]; exact hj), if_pos (by rw [hdegree]; omega)]
  induction k using chebyshev.induct with
  | case1 => exact ha
  | case2 =>
      intro φ
      show (terms (multiply .direct a x)).eval φ = _
      rw [hproduct 0 a hk ha φ]
      exact congrArg (c * ·) (half_mul_add_self hhalf _)
  | case3 k ih1 ih0 =>
      have hdown : distance (k + 1) 1 = k := by
        rw [distance]
        omega
      intro φ
      rw [chebyshev_multiplication_succ_succ, eval_sub, eval_add,
        hproduct (k + 1) _ (by omega) (ih1 (by omega)), ih0 (by omega), hdown]
      have htwo := half_mul_add_self hhalf (φ (List.replicate r 0 ++ (k + 1 + 1) :: q)
        + φ (List.replicate r 0 ++ k :: q))
      linear_combination c * htwo

end Multiply

end Shape

/-! ## Coordinates as expansions -/

namespace Expansion

variable {T R : Type}

theorem build_self (s : Shape) : Shape.build s.nvar s.degree = .ok s := by
  rw [Shape.build, GradedBasis.build_of_admissible s.admissible]
  refine congrArg Except.ok ?_
  exact Shape.Alike.eq ⟨rfl, rfl⟩

theorem coordinate_eq [Arithmetic T] {s : Shape} {v : Nat} (hv : v < s.nvar) (hd : 1 ≤ s.degree) :
    coordinate s.nvar s.degree v = (.ok ⟨s, s.coordinateVector T v⟩ : Result R (Expansion T)) := by
  have hlt : 1 + v < s.size :=
    (Array.getElem?_eq_some_iff.mp (GradedBasis.tuples_coordinate hv hd)).1
  have hvector : s.zeros.set (1 + v) 1 hlt = s.coordinateVector T v := by
    refine Vector.toList_inj.mp ?_
    rw [Shape.coordinateVector, Vector.toList_set, Vector.toList_setIfInBounds]
  have hzero : zero s.nvar s.degree = (.ok (zeroIn s) : Result R (Expansion T)) := by
    rw [zero, shapeFor, build_self]
    rfl
  rw [coordinate, if_neg (Nat.not_le.mpr hv), basis, hzero]
  show setCoefficient (zeroIn s) (1 + v) 1 = _
  rw [setCoefficient]
  show (if h : 1 + v < s.size then _ else _) = _
  rw [dif_pos hlt, ← hvector]
  rfl

end Expansion

end TensorChebyshev
