import Mathlib
import TensorChebyshev.Proofs.Cosine.RoundTrip
import TensorChebyshev.Proofs.Words.Widths

/-!
# Values on the grid

The grid is worked on in one array, in place: the coefficients are scattered, the
lines of one axis after the other are transformed, and coefficients are gathered
at the end. What then stands at a place is what the nested recurrence gives at
the point of its digits, and the way back ends with the coefficients.
-/

namespace TensorChebyshev

/-! ## Points of places -/

/-- The point of the place of a tuple has the nodes of its entries. -/
theorem gridPoint_gridOffset {T : Type} (x : Nat → T) {p : Nat} {t : Tuple}
    (h : Tuple.Fits p t) : gridPoint x p t.length (gridOffset p t) = t.map x := by
  induction t with
  | nil => rfl
  | cons e t ih =>
      obtain ⟨he, ht⟩ := h.cons
      rw [List.length_cons, gridPoint, gridOffset_mod t he, gridOffset_div t he, ih ht,
        List.map_cons]

theorem gridOffset_ofFn (p : Nat) {n : Nat} (j : Fin n → Nat) :
    gridOffset p (List.ofFn j) = ∑ v : Fin n, j v * p ^ v.val := by
  induction n with
  | zero => simp [gridOffset]
  | succ n ih =>
      have hstep : ∀ v : Fin n, j v.succ * p ^ v.succ.val = p * (j v.succ * p ^ v.val) :=
        fun v => by
          rw [Fin.val_succ, pow_succ]
          ring
      rw [List.ofFn_succ, gridOffset, ih, Fin.sum_univ_succ, Finset.mul_sum,
        Finset.sum_congr rfl fun v _ => hstep v, Fin.val_zero, pow_zero, mul_one]

theorem fits_digits {p n : Nat} (j : Fin n → Fin p) :
    Tuple.Fits p (List.ofFn fun v => (j v).val) := by
  intro e he
  obtain ⟨v, rfl⟩ := List.mem_ofFn.mp he
  exact (j v).isLt

/-- The single node is the one that the cosine gives as well. -/
theorem get_lobattoNodes (m : Nat) (j : Fin (m + 1)) :
    (RealLine.lobattoNodes m : Vector ℝ (m + 1)).get j = node m j := by
  rcases Nat.eq_zero_or_pos m with rfl | hm
  · obtain rfl := Fin.fin_one_eq_zero j
    rw [RealLine.lobattoNodes, if_pos rfl, Vector.get_replicate, node]
    simp
  · exact getElem_lobattoNodes hm j.isLt

/-! ## In place -/

namespace Shape

section InPlace

variable {T R : Type} [Scalar T R] {s : Shape}

/-- Writes the coefficients to their places on the grid, which has to have them. -/
def scatterInPlace? (c : s.Coefficients T) : Option (Array T) :=
  (c.toList.zip s.offsets).foldlM (fun data x => replace? data (x.2, x.1))
    (Array.replicate s.gridCount 0)

/-- Reads the coefficients at their places on the grid. -/
def gatherInPlace? (s : Shape) (data : Array T) : Option (Array T) := do
  let cs ← s.offsets.mapM fun o => data[o]?
  return cs.toArray

theorem scatterInPlace?_eq (c : s.Coefficients T) :
    scatterInPlace? c = some (s.scatter c).toArray := by
  have hrun : ∀ (l : List (T × Nat)) (data : s.GridData T), (∀ x ∈ l, x.2 < s.gridCount) →
      l.foldlM (fun data x => replace? data (x.2, x.1)) data.toArray
        = some (l.foldl (fun data x => data.setIfInBounds x.2 x.1) data).toArray := by
    intro l
    induction l with
    | nil =>
        intro data _
        rfl
    | cons x l ih =>
        intro data hl
        obtain ⟨hx, hl⟩ := List.forall_mem_cons.mp hl
        have hsize : x.2 < data.toArray.size := by rwa [data.size_toArray]
        have hset : data.toArray.set x.2 x.1 hsize
            = (data.setIfInBounds x.2 x.1).toArray := (dif_pos hsize).symm
        rw [List.foldlM_cons, replace?, dif_pos hsize, hset, Option.bind_eq_bind,
          Option.bind_some, ih _ hl, List.foldl_cons]
  exact hrun _ (Vector.replicate _ 0) fun x hx =>
    lt_gridSize_of_mem_offsets (List.of_mem_zip hx).2

theorem gatherInPlace?_eq (data : s.GridData T) :
    gatherInPlace? s data.toArray = some (s.gather data).toArray := by
  have hread : ∀ o ∈ s.offsets, data.toArray[o]? = some ((data[o]?).getD 0) := by
    intro o ho
    have hlt := lt_gridSize_of_mem_offsets ho
    rw [Vector.getElem?_toArray, Vector.getElem?_eq_getElem hlt, Option.getD_some]
  rw [gatherInPlace?, mapM_eq_some_map hread, ← toList_gather]
  rfl

variable [RealLine R] [CosineTransform T]

/-- The values at the grid points, axis by axis in place. -/
def valuesInPlace? (c : s.Coefficients T) : Option (Array T) := do
  let data ← scatterInPlace? c
  axes? (p := gridPoints s.degree) valuesOfCoefficients s.gridCount s.nvar 1 data

/-- The coefficients out of the values at the grid points, axis by axis in place. -/
def coefficientsInPlace? (s : Shape) (values : Array T) : Option (Array T) := do
  let data ← axes? (p := gridPoints s.degree) coefficientsOfValues s.gridCount s.nvar 1 values
  gatherInPlace? s data

theorem valuesInPlace?_eq (c : s.Coefficients T) :
    valuesInPlace? c = some (s.gridValues c).toArray := by
  rw [valuesInPlace?, scatterInPlace?_eq, Option.bind_eq_bind, Option.bind_some, axes?_toArray]
  rfl

theorem coefficientsInPlace?_eq (values : s.GridData T) :
    coefficientsInPlace? s values.toArray = some (s.gridCoefficients values).toArray := by
  rw [coefficientsInPlace?, axes?_toArray, Option.bind_eq_bind, Option.bind_some,
    gatherInPlace?_eq]
  rfl

end InPlace

/-! ## Point values -/

variable {T : Type} [Scalar T ℝ] [RealAlgebra T] {s : Shape}

/-- The point of a place has the nodes of its digits for coordinates. -/
theorem gridPointAt_sum (j : Fin s.nvar → Fin (2 * s.degree + 1)) :
    gridPointAt T s (∑ v, (j v).val * (2 * s.degree + 1) ^ v.val)
      = List.ofFn fun v => Scalar.ofReal ((RealLine.lobattoNodes (2 * s.degree)).get (j v)) := by
  have hpoint := gridPoint_gridOffset
    (fun k => RealAlgebra.embed T (node (gridPoints s.degree - 1) k)) (fits_digits j)
  rw [List.length_ofFn, gridOffset_ofFn, List.map_ofFn] at hpoint
  refine hpoint.trans (congrArg List.ofFn (funext fun v => ?_))
  rw [get_lobattoNodes]
  rfl

theorem place_lt_gridCount (j : Fin s.nvar → Fin (2 * s.degree + 1)) :
    ∑ v, (j v).val * (2 * s.degree + 1) ^ v.val < s.gridCount := by
  rw [← gridOffset_ofFn]
  exact gridOffset_lt List.length_ofFn (fits_digits j)

variable [CosineTransform T]

attribute [local instance] ExactRing.toCommRing

/-- **The grid gives the coefficients back.** -/
theorem gridCoefficients_gridValues (h : CosineTransform.Exact T) (c : s.Coefficients T) :
    s.gridCoefficients (s.gridValues c) = c := by
  refine Vector.ext fun i hi => ?_
  rw [getElem_gridCoefficients h (l := terms c)
    (fun x hx => ⟨length_of_mem_terms hx, fits_of_mem_terms hx⟩) _
    (fun k => get_gridValues h c k) i hi, coefficient_terms c hi]

end Shape

namespace Expansion

variable {T : Type} [Scalar T ℝ] [RealAlgebra T] [CosineTransform T]

/-- **Grid values are point values**: at the place with the digits `j`, the first variable
fastest, stands what the nested recurrence gives at the point whose coordinates are the nodes
`j`, and the coefficients are found again. One array suffices, in which the axes are transformed
line by line in place, on both ways. -/
theorem gridValues_eq_evaluate (h : CosineTransform.Exact T) {s : Shape} (c : s.Coefficients T) :
    (∀ j : Fin s.nvar → Fin (2 * s.degree + 1), ∃ y : T,
      (s.gridValues c)[∑ v, (j v).val * (2 * s.degree + 1) ^ v.val]? = some y ∧
      evaluate ⟨s, c⟩ (Array.ofFn fun v =>
          Scalar.ofReal ((RealLine.lobattoNodes (2 * s.degree)).get (j v)))
        = (.ok y : Result ℝ T)) ∧
    s.gridCoefficients (s.gridValues c) = c ∧
    Shape.valuesInPlace? c = some (s.gridValues c).toArray ∧
    s.coefficientsInPlace? (s.gridValues c).toArray = some c.toArray := by
  have hback := Shape.gridCoefficients_gridValues h c
  refine ⟨fun j => ?_, hback, Shape.valuesInPlace?_eq c, ?_⟩
  · have hplace := Shape.place_lt_gridCount j
    refine ⟨_, Vector.getElem?_eq_getElem hplace, ?_⟩
    let point : Array T := Array.ofFn fun v =>
      Scalar.ofReal ((RealLine.lobattoNodes (2 * s.degree)).get (j v))
    have hpoint : point.toList
        = Shape.gridPointAt T s (∑ v, (j v).val * (2 * s.degree + 1) ^ v.val) := by
      rw [Array.toList_ofFn, Shape.gridPointAt_sum]
    refine (evaluate_of_size ⟨s, c⟩ point Array.size_ofFn).trans (congrArg Except.ok ?_)
    exact (congrArg (Shape.value c) hpoint).trans (Shape.get_gridValues h c ⟨_, hplace⟩).symm
  · rw [Shape.coefficientsInPlace?_eq, hback]

attribute [local instance] CosineTransform.bySums in
/-- The function `1 + x + y` has three nodes on each axis. The last row begins at the
point `(1, -1)`. -/
theorem gridValues_eq_evaluate_plane :
    ((plane ℝ).shape.gridValues (plane ℝ).coeffs)[6]? = some 1 ∧
      (plane ℝ).shape.gridCoefficients ((plane ℝ).shape.gridValues (plane ℝ).coeffs)
        = (plane ℝ).coeffs := by
  obtain ⟨hpoints, hback, -⟩ :=
    gridValues_eq_evaluate CosineTransform.exact_bySums (plane ℝ).coeffs
  obtain ⟨y, hy, hvalue⟩ := hpoints (![0, 2] : Fin 2 → Fin 3)
  have hfirst : (RealLine.lobattoNodes 2 : Vector ℝ 3).get 0 = 1 := by
    rw [get_lobattoNodes]
    simp [node]
  have hlast : (RealLine.lobattoNodes 2 : Vector ℝ 3).get 2 = -1 := by
    rw [get_lobattoNodes]
    simp [node]
  have hpoint : (Array.ofFn fun v : Fin 2 => (RealLine.lobattoNodes 2 : Vector ℝ 3).get
      ((![0, 2] : Fin 2 → Fin 3) v)) = #[1, -1] := by
    rw [← Array.toList_inj, Array.toList_ofFn, List.ofFn_succ, List.ofFn_succ, List.ofFn_zero]
    exact congrArg₂ (fun x y => [x, y]) hfirst hlast
  have hone : (plane ℝ).evaluate #[1, -1] = (.ok 1 : Result ℝ ℝ) := by
    have hvalue : (plane ℝ).value [1, -1] = 1 := by
      rw [value_plane]
      norm_num
    rw [evaluate_of_size _ _ rfl, hvalue]
  have hy1 : y = 1 := by
    refine Except.ok.inj (hvalue.symm.trans (Eq.trans ?_ hone))
    exact congrArg (plane ℝ).evaluate hpoint
  exact ⟨hy1 ▸ hy, hback⟩

end Expansion

end TensorChebyshev
