import Mathlib
import TensorChebyshev.Proofs.Product.Associative
import TensorChebyshev.Proofs.Product.Branches
import TensorChebyshev.Proofs.Product.Rows
import TensorChebyshev.Proofs.Product.Terms

/-!
# What a row says about its pair

A row keeps the positions of those branches of a pair that are within the degree
of the shape. Branches are distinct and so are their positions; they are met by
their exponents alone, and all of them together, the dropped ones included, are
the product of the two basis functions. The rows of all pairs stand in the order
of their slots.
-/

namespace TensorChebyshev

/-! ## Pairs in the order of their slots -/

/-- The pairs of positions below `n`, in the order of their slots. -/
def pairsBelow (n : Nat) : List (Nat × Nat) :=
  (List.range n).flatMap fun j => (List.range (j + 1)).map fun i => (i, j)

theorem mem_pairsBelow {n : Nat} {ij : Nat × Nat} (h : ij ∈ pairsBelow n) :
    ij.1 < n ∧ ij.2 < n := by
  obtain ⟨j, hj, hij⟩ := List.mem_flatMap.mp h
  obtain ⟨i, hi, rfl⟩ := List.mem_map.mp hij
  have hj := List.mem_range.mp hj
  have hi := List.mem_range.mp hi
  exact ⟨Nat.lt_of_lt_of_le hi hj, hj⟩

/-! ## Rows of tuples -/

section Tuples

variable {n d : Nat} {t u : Tuple}

theorem ProductRow.nodup_terms_ofTuples : (ofTuples n d t u).terms.Nodup := by
  refine (nodup_branches t u).filterMap fun w w' k hw hw' => ?_
  have hk := rank?_eq_some_iff.mp (Option.mem_def.mp hw)
  have hk' := rank?_eq_some_iff.mp (Option.mem_def.mp hw')
  exact Option.some.inj (hk.symm.trans hk')

end Tuples

namespace Shape

variable {s : Shape} {t u : Tuple}

theorem mem_terms_ofTuples {k : Nat} :
    k ∈ (ProductRow.ofTuples s.nvar s.degree t u).terms
      ↔ ∃ w, s.tuples[k]? = some w ∧ w ∈ branches t u := by
  rw [ProductRow.ofTuples, List.mem_filterMap]
  constructor
  · rintro ⟨w, hw, hk⟩
    exact ⟨w, s.rank?_eq_some_iff.mp hk, hw⟩
  · rintro ⟨w, hk, hw⟩
    exact ⟨w, hw, s.rank?_eq_some_iff.mpr hk⟩

/-- The tuples of a row are the branches within the degree, in their order. -/
theorem map_tupleAt_terms (ht : t.length = s.nvar) (hu : u.length = s.nvar) :
    (ProductRow.ofTuples s.nvar s.degree t u).terms.map s.tupleAt
      = (branches t u).filter fun w => totalDegree w ≤ s.degree := by
  have hback : ∀ w ∈ branches t u, (rank? s.nvar s.degree w).map s.tupleAt
      = Option.guard (fun w => totalDegree w ≤ s.degree) w := by
    intro w hw
    have hlen := (length_and_degree_of_mem_branches (ht.trans hu.symm) hw).1.trans ht
    by_cases hdeg : totalDegree w ≤ s.degree
    · have hrank : rank? s.nvar s.degree w = some (rank w) := if_pos ⟨hlen, hdeg⟩
      rw [hrank, Option.map_some, GradedBasis.tupleAt_of_getElem? (s.rank?_eq_some_iff.mp hrank)]
      exact (if_pos (decide_eq_true hdeg)).symm
    · have hrank : rank? s.nvar s.degree w = none := if_neg fun h => hdeg h.2
      rw [hrank, Option.map_none]
      simp [Option.guard, hdeg]
  rw [ProductRow.ofTuples, List.map_filterMap, List.filterMap_congr hback,
    List.filterMap_eq_filter]

/-! ## Looking up a pair -/

theorem pair_eq_ok {i j : Nat} (h : max i j < s.size) : s.pair i j = .ok (s.product i j) :=
  if_pos h

theorem pair_eq_error_iff {i j : Nat} {f : PositionFault} :
    s.pair i j = .error f ↔ s.size ≤ max i j ∧ f = ⟨max i j⟩ := by
  by_cases h : max i j < s.size
  · rw [pair_eq_ok h]
    simp only [reduceCtorEq, false_iff, not_and]
    exact fun hle => absurd h (Nat.not_lt.mpr hle)
  · rw [pair, if_neg h, Except.error.injEq]
    simp [Nat.not_lt.mp h, eq_comm]

theorem pair_comm (s : Shape) (i j : Nat) : s.pair i j = s.pair j i := by
  rw [pair, pair, product, product, Nat.max_comm i j, Nat.min_comm i j]

/-! ## All rows -/

theorem product_min_max (i j : Nat) : s.product (min i j) (max i j) = s.product i j := by
  have hle : min i j ≤ max i j := Nat.le_trans (Nat.min_le_left i j) (Nat.le_max_left i j)
  rw [product, product, Nat.min_eq_left hle, Nat.max_eq_right hle]

/-- The rows of all pairs, in the order of their slots. -/
def rows (s : Shape) : List ProductRow :=
  (pairsBelow s.size).map fun ij => s.product ij.1 ij.2

theorem rows_eq_flatMap (s : Shape) :
    s.rows = (List.range s.size).flatMap fun j =>
      (List.range (j + 1)).map fun i => s.product i j := by
  rw [rows, pairsBelow, List.map_flatMap]
  simp only [List.map_map, Function.comp_def]

/-- The slot of a pair is its place among the pairs, so the row there is its own. -/
theorem getElem?_rows {i j : Nat} (h : max i j < s.size) :
    s.rows[slot (min i j) (max i j)]? = some (s.product i j) := by
  have hle : min i j ≤ max i j := Nat.le_trans (Nat.min_le_left i j) (Nat.le_max_left i j)
  have hplace : (pairsBelow s.size)[slot (min i j) (max i j)]? = some (min i j, max i j) :=
    getElem?_triangle (fun j i => (i, j)) hle h
  rw [rows, List.getElem?_map, hplace, Option.map_some, product_min_max]

/-- These are the rows that are kept. -/
theorem toList_products (s : Shape) : s.products.get.toList = s.rows := by
  rw [s.products.get_eq, rows_eq_flatMap]
  refine (toList_productRows s.nvar s.degree s.tuples).trans ?_
  refine List.flatMap_congr fun j hj => List.map_congr_left fun i hi => ?_
  have hj : j < s.size := List.mem_range.mp hj
  have hi : i < s.size := Nat.lt_of_lt_of_le (List.mem_range.mp hi) hj
  exact (product_eq (GradedBasis.tuples_getElem?_of_lt hi)
    (GradedBasis.tuples_getElem?_of_lt hj)).symm

theorem termCount_eq_length (s : Shape) : s.termCount = (s.rows.flatMap (·.terms)).length := by
  rw [termCount, ← Array.foldl_toList, toList_products, List.length_flatMap, List.sum_eq_foldl,
    List.foldl_map]

/-- The terms are counted row by row. -/
theorem termCount_eq_sum (s : Shape) :
    s.termCount = ∑ j ∈ Finset.range s.size, ∑ i ∈ Finset.range (j + 1),
      (s.product i j).terms.length := by
  rw [termCount_eq_length, rows_eq_flatMap, List.length_flatMap, List.map_flatMap,
    List.flatMap_def, List.sum_flatten, List.map_map]
  simp only [List.map_map, Function.comp_def]
  rfl

/-! ## Decompositions -/

/-- What a row promises about two tuples of the shape. -/
structure Decomposes (s : Shape) (t u : Tuple) (row : ProductRow) : Prop where
  nodup : row.terms.Nodup
  /-- The row has the positions within the degree whose exponents are sums or distances. -/
  mem_terms : ∀ k, k ∈ row.terms ↔ ∃ w, s.tuples[k]? = some w ∧ totalDegree w ≤ s.degree ∧
    ∀ v < s.nvar, w.getD v 0 = t.getD v 0 + u.getD v 0 ∨
      w.getD v 0 = ((t.getD v 0 : ℤ) - u.getD v 0).natAbs
  halvings : row.halvings
    = ((List.range s.nvar).filter fun v => t.getD v 0 ≠ 0 ∧ u.getD v 0 ≠ 0).length
  /-- There are `2 ^ halvings` branches, and the product is their mean. -/
  branches : (branches t u).Nodup ∧ (branches t u).length = 2 ^ row.halvings ∧
    ∀ (A : Type) [CommRing A] (x : List A), x.length = s.nvar →
      2 ^ row.halvings * (tensorChebyshev t x * tensorChebyshev u x)
        = ((branches t u).map (tensorChebyshev · x)).sum
  /-- The row lists the branches that are within the degree. -/
  surviving : row.terms.map s.tupleAt
    = (TensorChebyshev.branches t u).filter fun w => totalDegree w ≤ s.degree

theorem decomposes_ofTuples (ht : t.length = s.nvar) (hu : u.length = s.nvar) :
    s.Decomposes t u (ProductRow.ofTuples s.nvar s.degree t u) where
  nodup := ProductRow.nodup_terms_ofTuples
  mem_terms := by
    intro k
    simp only [mem_terms_ofTuples, mem_branches_iff ht hu, distance_eq_natAbs]
    refine exists_congr fun w => and_congr_right fun hk => ?_
    obtain ⟨hlen, hdeg⟩ := s.mem_of_getElem? hk
    simp only [hlen, hdeg, true_and]
  halvings := splits_eq_length ht hu
  branches := by
    refine ⟨nodup_branches t u, length_branches t u, ?_⟩
    intro A _ x hx
    exact two_pow_splits_mul (ht.trans hx.symm) (hu.trans hx.symm)
  surviving := map_tupleAt_terms ht hu

end Shape

end TensorChebyshev
