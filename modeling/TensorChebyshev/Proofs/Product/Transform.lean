import Mathlib
import TensorChebyshev.Product.Strategy
import TensorChebyshev.Proofs.Product.Grid
import TensorChebyshev.Proofs.Product.Multiply
import TensorChebyshev.Proofs.Scalar.Parts

/-!
# Multiplication by values

The values of two expansions multiply to the values of their whole product,
whose exponents are below the number of nodes. So the coefficients found from
them are those of the product, and multiplication by values agrees with
multiplication by rows.
-/

namespace TensorChebyshev

open RealAlgebra (embed)

namespace Shape

/-! ## Tuples on the grid -/

section Places

variable {T : Type} {s : Shape}

theorem fits_of_mem_terms {v : s.Coefficients T} {c : Tuple × T} (hc : c ∈ terms v) :
    Tuple.Fits (gridPoints s.degree) c.1 := by
  have hdeg := degree_of_mem_terms hc
  exact Tuple.Fits.of_totalDegree (by omega)

theorem gridOffset_lt_of_mem {t : Tuple} (ht : t ∈ graded s.nvar s.degree) :
    gridOffset (gridPoints s.degree) t < gridSize (gridPoints s.degree) s.nvar := by
  obtain ⟨hlen, hdeg⟩ := mem_graded.mp ht
  exact gridOffset_lt hlen (Tuple.Fits.of_totalDegree (by omega))

theorem lt_gridSize_of_mem_offsets {o : Nat} (h : o ∈ s.offsets) :
    o < gridSize (gridPoints s.degree) s.nvar := by
  obtain ⟨t, ht, rfl⟩ := List.mem_map.mp h
  rw [GradedBasis.tuples_eq] at ht
  exact gridOffset_lt_of_mem ht

theorem zip_offsets (v : s.Coefficients T) :
    v.toList.zip s.offsets = (terms v).map fun c => (c.2, gridOffset (gridPoints s.degree) c.1) := by
  have hlen : (terms v).length = s.size := GradedBasis.length_labelled v.length_toList
  refine List.ext_getElem (by simp [hlen, offsets, GradedBasis.size_eq]) fun i hi _ => ?_
  simp [offsets, terms, GradedBasis.labelled]

theorem nodup_offsets (v : s.Coefficients T) :
    ((terms v).map fun c => gridOffset (gridPoints s.degree) c.1).Nodup := by
  have hmap : ((terms v).map fun c => gridOffset (gridPoints s.degree) c.1)
      = (graded s.nvar s.degree).map (gridOffset (gridPoints s.degree)) := by
    rw [← GradedBasis.map_fst_labelled v.length_toList, List.map_map]
    rfl
  rw [hmap]
  refine List.Nodup.map_on (fun t ht u hu h => ?_) (nodup_graded _ _)
  obtain ⟨htlen, htdeg⟩ := mem_graded.mp ht
  obtain ⟨hulen, hudeg⟩ := mem_graded.mp hu
  exact (gridOffset_inj (htlen.trans hulen.symm) (Tuple.Fits.of_totalDegree (by omega))
    (Tuple.Fits.of_totalDegree (by omega))).mp h

theorem toList_gather {R : Type} [Scalar T R] (data : s.GridData T) :
    (s.gather data).toList = s.offsets.map fun o => (data[o]?).getD 0 := by
  refine List.ext_getElem ?_ fun i _ _ => ?_
  · rw [List.length_map, offsets, List.length_map, Vector.length_toList]
    rfl
  · simp [gather, offsets]

theorem getElem_gather {R : Type} [Scalar T R] (data : s.GridData T) (i : Nat) (hi : i < s.size)
    (hlt : gridOffset (gridPoints s.degree) (s.tupleAt i)
      < gridSize (gridPoints s.degree) s.nvar) :
    (s.gather data)[i] = data.get ⟨gridOffset (gridPoints s.degree) (s.tupleAt i), hlt⟩ := by
  have htuple : s.tuples[i] = s.tupleAt i :=
    (Array.getElem?_eq_some_iff.mp (GradedBasis.tuples_getElem?_of_lt hi)).2
  rw [gather, Vector.getElem_ofFn]
  show (data[gridOffset (gridPoints s.degree) s.tuples[i]]?).getD 0 = _
  rw [htuple, Vector.getElem?_eq_getElem hlt, Option.getD_some]
  rfl

end Places

variable {T : Type} [Scalar T ℝ] [RealAlgebra T] {s : Shape}

attribute [local instance] ExactRing.toCommRing

/-- The point of a place on the grid of a shape. -/
noncomputable def gridPointAt (T : Type) [Scalar T ℝ] [RealAlgebra T] (s : Shape) (k : Nat) :
    List T :=
  gridPoint (fun j => embed T (node (gridPoints s.degree - 1) j)) (gridPoints s.degree) s.nvar k

theorem length_gridPointAt (k : Nat) : (gridPointAt T s k).length = s.nvar :=
  length_gridPoint ..

theorem tensorEntry_value {t : Tuple} (hlen : t.length = s.nvar)
    (hfits : Tuple.Fits (gridPoints s.degree) t) (k : Nat) :
    tensorEntry (gridPoints s.degree) (valueEntry T (gridPoints s.degree - 1)) s.nvar k
        (gridOffset (gridPoints s.degree) t)
      = tensorChebyshev t (gridPointAt T s k) := by
  rw [gridPointAt, ← hlen]
  exact tensorEntry_gridOffset _ hfits k

theorem sum_scatter (v : s.Coefficients T) (g : Nat → T) :
    ∑ j : Fin (gridSize (gridPoints s.degree) s.nvar), g j * (s.scatter v).get j
      = (terms v).eval fun t => g (gridOffset (gridPoints s.degree) t) := by
  have hnodup := nodup_offsets v
  have hzero : ∀ x ∈ (terms v).map fun c => (c.2, gridOffset (gridPoints s.degree) c.1),
      (Vector.replicate (gridSize (gridPoints s.degree) s.nvar) (0 : T))[x.2]? = some 0 := by
    intro x hx
    obtain ⟨c, hc, rfl⟩ := List.mem_map.mp hx
    have hlt := gridOffset_lt_of_mem (GradedBasis.fst_mem_of_mem_labelled hc)
    rw [Vector.getElem?_replicate, if_pos hlt]
  rw [scatter, zip_offsets, sum_foldl_set g _ _ (by rwa [List.map_map]) hzero,
    Finset.sum_eq_zero, zero_add, List.map_map, Combination.eval]
  · congr 1
    refine List.map_congr_left fun c _ => ?_
    exact mul_comm _ _
  · intro j _
    rw [Vector.get_replicate, mul_zero]

variable [CosineTransform T]

/-! ## Values -/

/-- **Grid values are the values at the grid points.** -/
theorem get_gridValues (h : CosineTransform.Exact T) (v : s.Coefficients T)
    (k : Fin (gridSize (gridPoints s.degree) s.nvar)) :
    (s.gridValues v).get k = value v (gridPointAt T s k) := by
  have hmatrix := (exists_interpolation h (gridPoints s.degree)).1
  rw [gridValues, alongAxes_apply hmatrix, sum_scatter, value_eq_eval]
  refine Combination.eval_congr fun c hc => ?_
  exact tensorEntry_value (length_of_mem_terms hc) (fits_of_mem_terms hc) k

/-! ## Coefficients -/

/-- From the values of a combination whose exponents the grid can tell apart its
coefficients are found. -/
theorem getElem_gridCoefficients (h : CosineTransform.Exact T) {l : Combination T}
    (hl : ∀ c ∈ l, c.1.length = s.nvar ∧ Tuple.Fits (gridPoints s.degree) c.1)
    (values : s.GridData T)
    (hvalues : ∀ k : Fin (gridSize (gridPoints s.degree) s.nvar),
      values.get k = l.eval (tensorChebyshev · (gridPointAt T s k))) (i : Nat) (hi : i < s.size) :
    (s.gridCoefficients values)[i] = l.coefficient (s.tupleAt i) := by
  obtain ⟨A, hmatrix, hinverse⟩ := (exists_interpolation h (gridPoints s.degree)).2
  have hpower := tensorEntry_leftInverse hinverse s.nvar
  obtain ⟨hlen, hdeg⟩ := GradedBasis.tupleAt_mem hi
  have hfits : Tuple.Fits (gridPoints s.degree) (s.tupleAt i) :=
    Tuple.Fits.of_totalDegree (by omega)
  have hlt : gridOffset (gridPoints s.degree) (s.tupleAt i)
      < gridSize (gridPoints s.degree) s.nvar := gridOffset_lt hlen hfits
  -- the row of the inverse that picks out the place of this position
  let a := fun k : Fin (gridSize (gridPoints s.degree) s.nvar) =>
    tensorEntry (gridPoints s.degree) A s.nvar (gridOffset (gridPoints s.degree) (s.tupleAt i)) k
  have hterm : ∀ k ∈ Finset.univ, a k * values.get k
      = a k * l.eval (tensorChebyshev · (gridPointAt T s k)) := fun k _ => by rw [hvalues]
  rw [gridCoefficients, getElem_gather _ i hi hlt, alongAxes_apply hmatrix _ ⟨_, hlt⟩,
    Finset.sum_congr rfl hterm, ← Combination.eval_sum, Combination.coefficient]
  refine Combination.eval_congr fun c hc => ?_
  obtain ⟨hclen, hcfits⟩ := hl c hc
  have hclt := gridOffset_lt hclen hcfits
  have hentry : ∀ k ∈ Finset.univ, a k * tensorChebyshev c.1 (gridPointAt T s k)
      = a k * tensorEntry (gridPoints s.degree) (valueEntry T (gridPoints s.degree - 1)) s.nvar k
          (gridOffset (gridPoints s.degree) c.1) := fun k _ => by
    rw [tensorEntry_value hclen hcfits]
  rw [Finset.sum_congr rfl hentry, hpower _ _ hlt hclt]
  refine if_congr ?_ rfl rfl
  rw [eq_comm, gridOffset_inj (hclen.trans hlen.symm) hcfits hfits]

/-! ## Products -/

/-- **The product by values is the product by rows.** -/
theorem byValues_eq_direct (h : CosineTransform.Exact T) (a b : s.Coefficients T) :
    s.byValues a b = s.direct a b := by
  refine Vector.ext fun i hi => ?_
  -- the grid has a node more than twice the degree, so no two terms share a place
  have hfull : ∀ c ∈ fullProduct a b,
      c.1.length = s.nvar ∧ Tuple.Fits (gridPoints s.degree) c.1 := by
    intro c hc
    obtain ⟨hlen, hdeg⟩ := mem_fullProduct hc
    have ha := degree_terms_le a
    have hb := degree_terms_le b
    exact ⟨hlen, Tuple.Fits.of_totalDegree (by omega)⟩
  have hvalues : ∀ k : Fin (gridSize (gridPoints s.degree) s.nvar),
      ((s.gridValues a).zipWith (· * ·) (s.gridValues b)).get k
        = (fullProduct a b).eval (tensorChebyshev · (gridPointAt T s k)) := by
    intro k
    rw [Vector.get_eq_getElem, Vector.getElem_zipWith, ← Vector.get_eq_getElem,
      ← Vector.get_eq_getElem, get_gridValues h, get_gridValues h,
      value_mul RealAlgebra.half_add_half a b (length_gridPointAt k)]
  rw [byValues, getElem_gridCoefficients h hfull _ hvalues i hi, ← coefficient_terms _ hi,
    Combination.coefficient, Combination.coefficient, eval_direct, eval_fullProduct,
    Combination.coefficient_cutAbove _ (GradedBasis.tupleAt_mem hi).2, Combination.coefficient]

theorem multiply_transform (h : CosineTransform.Exact T) (a b : s.Coefficients T) :
    multiply .transform a b = multiply .direct a b := by
  have hgeneral : multiplyGeneral .transform a b = multiplyGeneral .direct a b := by
    rw [multiplyGeneral, multiplyGeneral, byValues_eq_direct h, ite_self]
  rw [multiply, multiply, hgeneral]

end Shape

namespace Expansion

variable {T : Type} [Scalar T ℝ] [RealAlgebra T] [CosineTransform T]

/-- **Both ways to multiply agree**: with an exact cosine transform over a real
algebra they answer the same to any two expansions. -/
theorem multiply_transform_eq_direct (h : CosineTransform.Exact T) (a b : Expansion T) :
    multiply .transform a b = multiply .direct a b := by
  rw [multiply, multiply]
  cases b.coeffsIn a.shape with
  | error cause => rfl
  | ok c =>
      show Except.ok _ = Except.ok _
      rw [Shape.multiply_transform h]

attribute [local instance] CosineTransform.bySums in
theorem multiply_transform_plane :
    multiply .transform (plane ℝ) (plane ℝ) = multiply .direct (plane ℝ) (plane ℝ) ∧
      multiply .transform (plane (Complex ℝ)) (plane (Complex ℝ))
        = multiply .direct (plane (Complex ℝ)) (plane (Complex ℝ)) ∧
      multiply .transform (plane (Dual ℝ)) (plane (Dual ℝ))
        = multiply .direct (plane (Dual ℝ)) (plane (Dual ℝ)) :=
  ⟨multiply_transform_eq_direct CosineTransform.exact_bySums _ _,
    multiply_transform_eq_direct CosineTransform.exact_bySums _ _,
    multiply_transform_eq_direct CosineTransform.exact_bySums _ _⟩

end Expansion

end TensorChebyshev
