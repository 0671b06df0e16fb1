import Mathlib
import TensorChebyshev.Product.Direct
import TensorChebyshev.Proofs.Index.Listing
import TensorChebyshev.Proofs.Scalar.Exact
import TensorChebyshev.Proofs.Series.Chebyshev

/-!
# Products of basis functions

The branches of a pair of tuples are the terms of the product of their basis
functions. Their lengths and degrees are those that a product may have, and
their sum, halved once for each split, is the product at every point.
-/

namespace TensorChebyshev

/-! ## The branches of a pair -/

theorem distance_comm (x y : Nat) : distance x y = distance y x := by
  rw [distance, distance, Nat.add_comm]

theorem distance_le (x y : Nat) : distance x y ≤ x + y := by
  rw [distance]
  omega

theorem splits_comm (t u : Tuple) : splits t u = splits u t := by
  induction t generalizing u with
  | nil => cases u <;> rfl
  | cons x t ih =>
      cases u with
      | nil => rfl
      | cons y u => simp only [splits, ih u, or_comm]

theorem branches_cons_of_zero {x y : Nat} (h : x = 0 ∨ y = 0) (t u : Tuple) :
    branches (x :: t) (y :: u) = (branches t u).map ((x + y) :: ·) := by
  rw [branches, if_pos h]

/-- Up to their order the branches are those of the sum and then those of the distance. -/
theorem branches_cons_perm {x y : Nat} (h : ¬ (x = 0 ∨ y = 0)) (t u : Tuple) :
    (branches (x :: t) (y :: u)).Perm
      ((branches t u).map ((x + y) :: ·) ++ (branches t u).map (distance x y :: ·)) := by
  rw [branches, if_neg h, List.map_eq_flatMap, List.map_eq_flatMap]
  exact (List.flatMap_append_perm (branches t u) (fun others => [(x + y) :: others])
    fun others => [distance x y :: others]).symm

theorem branches_comm (t u : Tuple) : branches t u = branches u t := by
  induction t generalizing u with
  | nil => cases u <;> rfl
  | cons x t ih =>
      cases u with
      | nil => rfl
      | cons y u => simp only [branches, ih u, or_comm, Nat.add_comm x y, distance_comm x y]

/-- The product with the constant basis function has one branch, the tuple itself. -/
theorem branches_replicate_zero (t : Tuple) : branches t (List.replicate t.length 0) = [t] := by
  induction t with
  | nil => rfl
  | cons x t ih => simp [List.replicate_succ, branches, ih]

theorem splits_replicate_zero (t : Tuple) (n : Nat) : splits t (List.replicate n 0) = 0 := by
  induction t generalizing n with
  | nil => cases n <;> rfl
  | cons x t ih =>
      cases n with
      | zero => rfl
      | succ n => simp [List.replicate_succ, splits, ih]

theorem mem_branches_cons {x y : Nat} {t u w : Tuple} :
    w ∈ branches (x :: t) (y :: u) ↔
      ∃ v ∈ branches t u, w = (x + y) :: v ∨ ¬ (x = 0 ∨ y = 0) ∧ w = distance x y :: v := by
  by_cases h : x = 0 ∨ y = 0
  · rw [branches_cons_of_zero h]
    simp [h, eq_comm]
  · rw [(branches_cons_perm h t u).mem_iff, List.mem_append, List.mem_map, List.mem_map]
    constructor
    · rintro (⟨v, hv, rfl⟩ | ⟨v, hv, rfl⟩)
      · exact ⟨v, hv, .inl rfl⟩
      · exact ⟨v, hv, .inr ⟨h, rfl⟩⟩
    · rintro ⟨v, hv, rfl | ⟨_, rfl⟩⟩
      · exact .inl ⟨v, hv, rfl⟩
      · exact .inr ⟨v, hv, rfl⟩

theorem length_and_degree_of_mem_branches {t u w : Tuple} (hlen : t.length = u.length)
    (hw : w ∈ branches t u) :
    w.length = t.length ∧ totalDegree w ≤ totalDegree t + totalDegree u := by
  induction t generalizing u w with
  | nil =>
      have hnil : w = [] := by simpa [branches] using hw
      subst hnil
      exact ⟨rfl, Nat.zero_le _⟩
  | cons x t ih =>
      match u, hlen with
      | y :: u, hlen =>
        obtain ⟨v, hv, hwv⟩ := mem_branches_cons.mp hw
        obtain ⟨hvlen, hvdeg⟩ := ih (Nat.succ.inj hlen) hv
        have hdist := distance_le x y
        rcases hwv with rfl | ⟨_, rfl⟩
        · refine ⟨by simp [hvlen], ?_⟩
          simp only [totalDegree]
          omega
        · refine ⟨by simp [hvlen], ?_⟩
          simp only [totalDegree]
          omega

/-! ## Product to sum -/

/-- **Product to sum**: a product of basis functions, doubled once for each split, is the sum
of its branches. -/
theorem two_pow_splits_mul {A : Type} [CommRing A] {x : List A} {t u : Tuple}
    (ht : t.length = x.length) (hu : u.length = x.length) :
    2 ^ splits t u * (tensorChebyshev t x * tensorChebyshev u x)
      = ((branches t u).map (tensorChebyshev · x)).sum := by
  induction x generalizing t u with
  | nil =>
      obtain rfl := List.length_eq_zero_iff.mp ht
      obtain rfl := List.length_eq_zero_iff.mp hu
      simp [tensorChebyshev, splits, branches]
  | cons z x ih =>
      obtain ⟨a, t, rfl⟩ := List.exists_cons_of_length_eq_add_one ht
      obtain ⟨b, u, rfl⟩ := List.exists_cons_of_length_eq_add_one hu
      have hrest := ih (Nat.succ.inj ht) (Nat.succ.inj hu)
      have hfront : ∀ e : Nat, (((branches t u).map (e :: ·)).map
          (tensorChebyshev · (z :: x))).sum
            = chebyshev z e * ((branches t u).map (tensorChebyshev · x)).sum := by
        intro e
        rw [List.map_map, ← List.sum_map_mul_left]
        rfl
      rw [tensorChebyshev, tensorChebyshev, splits]
      by_cases h : a = 0 ∨ b = 0
      · rw [if_pos h, branches_cons_of_zero h, hfront, ← hrest, ← chebyshev_mul_of_zero z h]
        ring
      · rw [if_neg h, ((branches_cons_perm h t u).map _).sum_eq, List.map_append,
          List.sum_append, hfront, hfront, ← hrest]
        have htwo := two_mul_chebyshev_mul z a b
        rw [← distance] at htwo
        linear_combination 2 ^ splits t u * (tensorChebyshev t x * tensorChebyshev u x) * htwo

variable {T R : Type} [RealLine R] [Scalar T R] [ExactRing T]

attribute [local instance] ExactRing.toCommRing

theorem two_pow_mul_halvedWeight (hhalf : (Scalar.half : T) + Scalar.half = 1) (h : Nat) :
    2 ^ h * (halvedWeight h : T) = 1 := by
  induction h with
  | zero => rw [halvedWeight, pow_zero, mul_one]
  | succ h ih =>
      rw [halvedWeight, pow_succ]
      linear_combination ih + 2 ^ h * halvedWeight h * hhalf

/-- With a half, a product is the sum of its branches, halved once for each split. -/
theorem tensorChebyshev_mul (hhalf : (Scalar.half : T) + Scalar.half = 1) {t u : Tuple}
    {x : List T} (ht : t.length = x.length) (hu : u.length = x.length) :
    tensorChebyshev t x * tensorChebyshev u x
      = halvedWeight (splits t u) * ((branches t u).map (tensorChebyshev · x)).sum := by
  rw [← two_pow_splits_mul ht hu, ← mul_assoc, mul_comm (halvedWeight _),
    two_pow_mul_halvedWeight hhalf, one_mul]

end TensorChebyshev
