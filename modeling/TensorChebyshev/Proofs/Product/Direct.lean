import Mathlib
import TensorChebyshev.Proofs.Product.Rows
import TensorChebyshev.Proofs.Product.Terms

/-!
# The product by rows

Every pair of nonzero coefficients adds its row, and a row holds the branches
that the truncation degree allows. So the product by rows is the product of the
two combinations, read with a function that vanishes on tuples of higher degree.
-/

namespace TensorChebyshev

open Combination (cutAbove)

namespace Shape

/-! ## Positions -/

section Positions

attribute [local instance] ExactRing.toCommRing

variable {T : Type} {s : Shape}

theorem lt_size_of_rank? {t : Tuple} {k : Nat} (h : rank? s.nvar s.degree t = some k) :
    k < s.size :=
  (Array.getElem?_eq_some_iff.mp (s.rank?_eq_some_iff.mp h)).1

/-- The positions in a row stand for the branches up to the truncation degree. -/
theorem sum_positions [Arithmetic T] [ExactRing T] (φ : Tuple → T) {l : List Tuple}
    (hl : ∀ t ∈ l, t.length = s.nvar) :
    ((l.filterMap (rank? s.nvar s.degree)).map fun k => φ (s.tupleAt k)).sum
      = (l.map (cutAbove s.degree φ)).sum := by
  induction l with
  | nil => rfl
  | cons t l ih =>
      have ih := ih fun u hu => hl u (List.mem_cons_of_mem _ hu)
      have ht := hl t (List.mem_cons_self ..)
      rw [List.map_cons, List.sum_cons, cutAbove, ← ih]
      cases hrank : rank? s.nvar s.degree t with
      | none =>
          -- the length is right, so only the degree can be too high
          have hdeg : ¬ totalDegree t ≤ s.degree := by
            rcases rank?_eq_none_iff.mp hrank with h | h
            · exact absurd ht h
            · omega
          rw [List.filterMap_cons_none hrank, if_neg hdeg, zero_add]
      | some k =>
          have hk : s.tuples[k]? = some t := s.rank?_eq_some_iff.mp hrank
          rw [List.filterMap_cons_some hrank, if_pos (s.mem_of_getElem? hk).2, List.map_cons,
            List.sum_cons, GradedBasis.tupleAt_of_getElem? hk]

end Positions

variable {T R : Type} [Scalar T R] {s : Shape}

theorem map_support (v : s.Coefficients T) :
    (support v).map (fun x => (s.tupleAt x.2, x.1)) = (terms v).nonzero := by
  rw [support, Combination.nonzero, terms_eq_map_zipIdx, List.filter_map]
  rfl

theorem lt_size_of_mem_support {v : s.Coefficients T} {x : T × Nat} (hx : x ∈ support v) :
    x.2 < s.size := by
  have h := (List.mem_zipIdx (List.mem_of_mem_filter hx)).2.1
  simpa using h

/-! ## Rows and pairs -/

variable [ExactRing T]

attribute [local instance] ExactRing.toCommRing

theorem eval_accumulate (w : T) (v : s.Coefficients T) {k : Nat} (hk : k < s.size)
    (φ : Tuple → T) :
    (terms (accumulate w v k)).eval φ = (terms v).eval φ + w * φ (s.tupleAt k) := by
  rw [eval_terms, eval_terms, accumulate, dif_pos hk]
  refine sum_eq_add_of_ne ⟨k, hk⟩ ?_ fun i hi => ?_
  · rw [Vector.get_eq_getElem, Vector.getElem_set_self, add_mul]
    rfl
  · have hne : k ≠ i.val := fun h => hi (Fin.ext h.symm)
    rw [Vector.get_eq_getElem, Vector.getElem_set_ne _ _ hne]
    rfl

variable [RealLine R]

theorem eval_addProduct (v : s.Coefficients T) {a b : T × Nat} (ha : a.2 < s.size)
    (hb : b.2 < s.size) (φ : Tuple → T) :
    (terms (s.addProduct v a b)).eval φ = (terms v).eval φ
      + Combination.contribution (cutAbove s.degree φ) (s.tupleAt a.2, a.1)
          (s.tupleAt b.2, b.1) := by
  have hrow := product_eq (GradedBasis.tuples_getElem?_of_lt ha)
    (GradedBasis.tuples_getElem?_of_lt hb)
  obtain ⟨hla, _⟩ := GradedBasis.tupleAt_mem ha
  obtain ⟨hlb, _⟩ := GradedBasis.tupleAt_mem hb
  have hlen : ∀ t ∈ branches (s.tupleAt a.2) (s.tupleAt b.2), t.length = s.nvar := fun t ht =>
    (length_and_degree_of_mem_branches (hla.trans hlb.symm) ht).1.trans hla
  rw [addProduct, hrow, Combination.contribution, ← sum_positions φ hlen, ← List.sum_map_mul_left]
  refine eval_foldl _ φ _ _ (fun v k hk => ?_) v
  obtain ⟨t, _, ht⟩ := List.mem_filterMap.mp hk
  exact eval_accumulate _ v (lt_size_of_rank? ht) φ

/-- **The product by rows is the product, cut off above the truncation degree.** -/
theorem eval_direct (a b : s.Coefficients T) (φ : Tuple → T) :
    (terms (s.direct a b)).eval φ
      = (Combination.product (terms a) (terms b)).eval (cutAbove s.degree φ) := by
  have hright : ∀ v, ∀ x ∈ support a,
      (terms ((support b).foldl (fun v y => s.addProduct v x y) v)).eval φ
        = (terms v).eval φ + ((support b).map fun y =>
            Combination.contribution (cutAbove s.degree φ) (s.tupleAt x.2, x.1)
              (s.tupleAt y.2, y.1)).sum := by
    intro v x hx
    refine eval_foldl _ φ _ _ (fun v y hy => ?_) v
    exact eval_addProduct v (lt_size_of_mem_support hx) (lt_size_of_mem_support hy) φ
  rw [direct, eval_foldl _ φ _ _ hright, eval_zeros, zero_add, ← Combination.eval_product_nonzero,
    Combination.eval_product, ← map_support, ← map_support, List.map_map]
  congr 1
  refine List.map_congr_left fun x _ => ?_
  simp only [Function.comp_apply, List.map_map]
  rfl

end Shape

end TensorChebyshev
