import TensorChebyshev.Proofs.Checked.Cosine
import TensorChebyshev.Proofs.Product.Transform

/-!
# Products that may stop

Both ways of multiplying, on arrays whose length no type gives. Every position is
looked up where it is used, and a row, a coefficient or a grid point that is not
there is a fault. On the coefficients of one shape no lookup fails, and the product
has a coefficient for each basis function of the shape again.
-/

namespace TensorChebyshev

variable {T R : Type}

/-- An expansion as a machine keeps it: the number of coefficients is what it is. -/
structure Raw (T : Type) where
  shape : Shape
  coeffs : Array T

namespace Raw

def of {s : Shape} (v : s.Coefficients T) : Raw T := ⟨s, v.toArray⟩

variable [RealLine R] [Scalar T R] {s : Shape}

/-! ## By rows -/

section Rows

def row (s : Shape) (i j : Nat) : Checked R ProductRow :=
  if max i j < s.size then Checked.entry s.products.get (slot (min i j) (max i j))
  else Checked.fault (.pair ⟨max i j⟩)

omit [RealLine R] in
theorem row_eq {i j : Nat} (hi : i < s.size) (hj : j < s.size) :
    (row s i j : Checked R ProductRow) = .ok (s.product i j) := by
  have hlo : min i j < s.size := Nat.lt_of_le_of_lt (Nat.min_le_left i j) hi
  have hhi : max i j < s.size := Nat.max_lt.mpr ⟨hi, hj⟩
  have hrow := Shape.getElem?_products (GradedBasis.tuples_getElem?_of_lt hlo)
    (GradedBasis.tuples_getElem?_of_lt hhi)
    (Nat.le_trans (Nat.min_le_left i j) (Nat.le_max_left i j))
  rw [row, if_pos hhi, Checked.entry_of_getElem? hrow, Shape.product, hrow, Option.getD_some]

omit [RealLine R] in
/-- The positions in a row are positions of the shape. -/
theorem lt_size_of_mem_terms {i j k : Nat} (hi : i < s.size) (hj : j < s.size)
    (hk : k ∈ (s.product i j).terms) : k < s.size := by
  rw [Shape.product_eq (GradedBasis.tuples_getElem?_of_lt hi)
    (GradedBasis.tuples_getElem?_of_lt hj)] at hk
  obtain ⟨t, -, ht⟩ := List.mem_filterMap.mp hk
  exact Shape.lt_size_of_rank? ht

def addTo (w : T) (v : Array T) (k : Nat) : Checked R (Array T) := do
  let x ← Checked.entry v k
  Checked.replace v k (x + w)

def addProduct (s : Shape) (v : Array T) (a b : T × Nat) : Checked R (Array T) := do
  let found ← row s a.2 b.2
  found.terms.foldlM (addTo (a.1 * b.1 * halvedWeight found.halvings)) v

/-- The nonzero coefficients with their positions. -/
def nonzero (cs : Array T) : List (T × Nat) := cs.toList.zipIdx.filter fun c => !isZero c.1

def direct (s : Shape) (a b : Array T) : Checked R (Array T) :=
  (nonzero a).foldlM (fun v x => (nonzero b).foldlM (fun v y => addProduct s v x y) v)
    (Array.replicate s.size 0)

omit [RealLine R] in
theorem addTo_toArray (w : T) (v : s.Coefficients T) {k : Nat} (hk : k < s.size) :
    addTo w v.toArray k = .ok (accumulate w v k).toArray := by
  rw [addTo, Checked.entry_toArray v hk, Checked.ok_bind, Checked.replace_toArray v hk, accumulate,
    dif_pos hk]

theorem addProduct_toArray (v : s.Coefficients T) {a b : T × Nat} (ha : a.2 < s.size)
    (hb : b.2 < s.size) : addProduct s v.toArray a b = .ok (s.addProduct v a b).toArray := by
  rw [addProduct, row_eq ha hb, Checked.ok_bind]
  exact Checked.foldlM_eq Vector.toArray
    (fun _ hk v => addTo_toArray _ v (lt_size_of_mem_terms ha hb hk)) v

/-- **The product by rows finds every row and every coefficient that it adds to.** -/
theorem direct_toArray (a b : s.Coefficients T) :
    direct s a.toArray b.toArray = .ok (s.direct a b).toArray := by
  refine Checked.foldlM_eq Vector.toArray (fun x hx v => ?_) (Vector.replicate s.size 0)
  refine Checked.foldlM_eq Vector.toArray (fun y hy v => ?_) v
  exact addProduct_toArray v (Shape.lt_size_of_mem_support hx) (Shape.lt_size_of_mem_support hy)

end Rows

/-! ## By values -/

section Axes

variable {p : Nat}

def alongAxes (p : Nat) (f : Array T → Checked R (Array T)) :
    (n : Nat) → Array T → Checked R (Array T)
  | 0, data => .ok data
  | n + 1, data => do
    let rows ← (List.range (gridSize p n)).mapM fun r => do
      let line ← (List.range p).mapM fun j => Checked.entry data (r * p + j)
      f line.toArray
    let columns ← (List.range p).mapM fun j => do
      let column ← rows.mapM fun line => Checked.entry line j
      alongAxes p f n column.toArray
    let entries ← (List.range (gridSize p (n + 1))).mapM fun k => do
      let column ← Checked.entry columns.toArray (k % p)
      Checked.entry column (k / p)
    return entries.toArray

variable {n : Nat}

/-- The entries of a row of a tensor. -/
def line (data : Vector T (gridSize p (n + 1))) (r : Fin (gridSize p n)) : Vector T p :=
  Vector.ofFn fun j => data.get (place r j)

omit [RealLine R] [Scalar T R] in
theorem mapM_line (data : Vector T (gridSize p (n + 1))) (r : Fin (gridSize p n)) :
    (List.range p).mapM (fun j => Checked.entry data.toArray (r * p + j))
      = (.ok (line data r).toList : Checked R (List T)) := by
  refine Checked.mapM_range _ fun j hj => ?_
  rw [Checked.entry_toArray data (place_lt r ⟨j, hj⟩), line, Vector.getElem_ofFn]
  rfl

omit [RealLine R] [Scalar T R] in
theorem mapM_column (f : Vector T p → Vector T p) (data : Vector T (gridSize p (n + 1)))
    (j : Fin p) :
    (Vector.ofFn fun r => (f (line data r)).toArray).toList.mapM
        (fun entries => Checked.entry entries j)
      = (.ok (mappedColumn f data.get j).toList : Checked R (List T)) := by
  refine Checked.mapM_of_getElem (by simp) fun r hr _ => ?_
  rw [Vector.getElem_toList, Vector.getElem_toList, Vector.getElem_ofFn,
    Checked.entry_toArray _ j.isLt]
  exact congrArg Except.ok (get_mappedColumn f data.get j ⟨r, by simpa using hr⟩).symm

omit [RealLine R] [Scalar T R] in
/-- **Going along the axes stays on the grid**: by induction on their number, every
line, every column and every entry that is read is there. -/
theorem alongAxes_toArray {f' : Array T → Checked R (Array T)} {f : Vector T p → Vector T p}
    (hf : ∀ v : Vector T p, f' v.toArray = .ok (f v).toArray) (n : Nat)
    (data : Vector T (gridSize p n)) :
    alongAxes p f' n data.toArray = .ok (TensorChebyshev.alongAxes f n data).toArray := by
  induction n with
  | zero => rfl
  | succ n ih =>
      let rows : Vector (Array T) (gridSize p n) := Vector.ofFn fun r => (f (line data r)).toArray
      let columns : Vector (Array T) p := Vector.ofFn fun j =>
        (TensorChebyshev.alongAxes f n (mappedColumn f data.get j)).toArray
      have hrows : (List.range (gridSize p n)).mapM (fun r => do
          let line ← (List.range p).mapM fun j => Checked.entry data.toArray (r * p + j)
          f' line.toArray) = (.ok rows.toList : Checked R _) := by
        refine Checked.mapM_range rows fun r hr => ?_
        rw [mapM_line data ⟨r, hr⟩, Checked.ok_bind, Vector.getElem_ofFn]
        exact hf (line data ⟨r, hr⟩)
      have hcolumns : (List.range p).mapM (fun j => do
          let column ← rows.toList.mapM fun line => Checked.entry line j
          alongAxes p f' n column.toArray) = (.ok columns.toList : Checked R _) := by
        refine Checked.mapM_range columns fun j hj => ?_
        rw [mapM_column f data ⟨j, hj⟩, Checked.ok_bind, Vector.getElem_ofFn]
        exact ih (mappedColumn f data.get ⟨j, hj⟩)
      have hentries : (List.range (gridSize p (n + 1))).mapM (fun k => do
          let column ← Checked.entry columns.toArray (k % p)
          Checked.entry column (k / p))
            = (.ok (TensorChebyshev.alongAxes f (n + 1) data).toList : Checked R _) := by
        refine Checked.mapM_range _ fun k hk => ?_
        have hp := pos_of_place hk
        have hmod : k % p < p := Nat.mod_lt _ hp
        have hdiv : k / p < gridSize p n := (Nat.div_lt_iff_lt_mul hp).mpr hk
        rw [Checked.entry_toArray columns hmod, Checked.ok_bind, Vector.getElem_ofFn,
          Checked.entry_toArray _ hdiv]
        exact congrArg Except.ok (get_alongAxes_succ f data ⟨k, hk⟩ hmod hdiv).symm
      rw [alongAxes, hrows, Checked.ok_bind, hcolumns, Checked.ok_bind, Vector.toList,
        Array.toArray_toList, hentries]
      rfl

end Axes

section Values

variable [CosineTransform T]

/-- The values of coefficients at the grid points. -/
def gridValues (s : Shape) (cs : Array T) : Checked R (Array T) := do
  let data ← (cs.toList.zip s.offsets).foldlM (fun data x => Checked.replace data x.2 x.1)
    (Array.replicate (gridSize (gridPoints s.degree) s.nvar) 0)
  alongAxes (gridPoints s.degree) valuesOfCoefficients s.nvar data

/-- The coefficients of the shape out of values at the grid points. -/
def gridCoefficients (s : Shape) (values : Array T) : Checked R (Array T) := do
  let data ← alongAxes (gridPoints s.degree) coefficientsOfValues s.nvar values
  let cs ← s.offsets.mapM fun o => Checked.entry data o
  return cs.toArray

def byValues (s : Shape) (a b : Array T) : Checked R (Array T) := do
  let x ← gridValues s a
  let y ← gridValues s b
  gridCoefficients s (Array.zipWith (· * ·) x y)

theorem gridValues_toArray (v : s.Coefficients T) :
    gridValues s v.toArray = .ok (s.gridValues v).toArray := by
  have hscatter : (v.toArray.toList.zip s.offsets).foldlM
      (fun data x => Checked.replace data x.2 x.1)
      (Array.replicate (gridSize (gridPoints s.degree) s.nvar) 0)
        = (.ok (s.scatter v).toArray : Checked R (Array T)) := by
    refine Checked.foldlM_eq Vector.toArray (fun x hx data => ?_) (Vector.replicate _ 0)
    have hlt := Shape.lt_gridSize_of_mem_offsets (List.of_mem_zip hx).2
    exact Checked.replace_setIfInBounds data hlt _
  rw [gridValues, hscatter, Checked.ok_bind]
  exact alongAxes_toArray valuesOfCoefficients_toArray s.nvar (s.scatter v)

theorem gridCoefficients_toArray (values : s.GridData T) :
    gridCoefficients s values.toArray = .ok (s.gridCoefficients values).toArray := by
  have hgather : ∀ data : s.GridData T,
      s.offsets.mapM (fun o => Checked.entry data.toArray o)
        = (.ok (s.gather data).toList : Checked R (List T)) := by
    intro data
    have hread : ∀ o ∈ s.offsets,
        Checked.entry data.toArray o = (.ok ((data[o]?).getD 0) : Checked R T) := by
      intro o ho
      have hlt := Shape.lt_gridSize_of_mem_offsets ho
      rw [Checked.entry_toArray data hlt, Vector.getElem?_eq_getElem hlt, Option.getD_some]
    rw [Expansion.mapM_eq_ok hread, Shape.toList_gather]
  rw [gridCoefficients, alongAxes_toArray coefficientsOfValues_toArray s.nvar values,
    Checked.ok_bind, hgather, Checked.ok_bind]
  rfl

/-- **The product by values writes and reads on the grid only.** -/
theorem byValues_toArray (a b : s.Coefficients T) :
    byValues s a.toArray b.toArray = .ok (s.byValues a b).toArray := by
  rw [byValues, gridValues_toArray, Checked.ok_bind, gridValues_toArray, Checked.ok_bind]
  exact gridCoefficients_toArray ((s.gridValues a).zipWith (· * ·) (s.gridValues b))

end Values

/-! ## The product -/

def constantTerm (e : Raw T) : Checked R T := Checked.entry e.coeffs 0

def isConstant (e : Raw T) : Checked R Bool := do
  let others ← Checked.rest e.coeffs
  return others.all isZero

def scale (e : Raw T) (value : T) : Raw T := ⟨e.shape, e.coeffs.map (· * value)⟩

omit [RealLine R] [Scalar T R] in
@[simp] theorem constantTerm_of (v : s.Coefficients T) :
    (of v).constantTerm = (.ok (Shape.constantTerm v) : Checked R T) :=
  Checked.entry_toArray v s.size_pos

omit [RealLine R] in
@[simp] theorem isConstant_of (v : s.Coefficients T) :
    (of v).isConstant = (.ok (Shape.isConstant v) : Checked R Bool) := by
  rw [isConstant, of, Checked.rest_toArray v s.size_pos]
  rfl

omit [RealLine R] in
@[simp] theorem scale_of (v : s.Coefficients T) (value : T) :
    (of v).scale value = of (Shape.scale v value) := by
  rw [scale, of, of, Shape.scale, Vector.toArray_map]

variable [CosineTransform T]

/-- The product of the coefficients, for the shape of the first factor. -/
def general (strategy : Strategy) (s : Shape) (a b : Array T) : Checked R (Array T) :=
  match strategy with
  | .direct => direct s a b
  | .transform => if s.HasGrid then byValues s a b else direct s a b

/-- The product of expansions of one shape, which is not looked at. -/
def product (strategy : Strategy) (a b : Raw T) : Checked R (Raw T) := do
  if ← b.isConstant then
    let c ← b.constantTerm
    return a.scale c
  else if ← a.isConstant then
    let c ← a.constantTerm
    return b.scale c
  else
    let cs ← general strategy a.shape a.coeffs b.coeffs
    return ⟨a.shape, cs⟩

theorem general_toArray (strategy : Strategy) (a b : s.Coefficients T) :
    general strategy s a.toArray b.toArray
      = .ok (Shape.multiplyGeneral strategy a b).toArray := by
  cases strategy with
  | direct => exact direct_toArray a b
  | transform =>
      by_cases h : s.HasGrid
      · rw [general, if_pos h, Shape.multiplyGeneral, if_pos h]
        exact byValues_toArray a b
      · rw [general, if_neg h, Shape.multiplyGeneral, if_neg h]
        exact direct_toArray a b

/-- **The product of two coefficient vectors of one shape is one of this shape.** -/
@[simp] theorem product_of (strategy : Strategy) (a b : s.Coefficients T) :
    (of a).product strategy (of b) = .ok (of (Shape.multiply strategy a b)) := by
  rw [product, isConstant_of, Checked.ok_bind, Shape.multiply]
  by_cases hb : Shape.isConstant b
  · rw [if_pos hb, if_pos hb, constantTerm_of, Checked.ok_bind, scale_of]
    rfl
  rw [if_neg hb, if_neg hb, isConstant_of, Checked.ok_bind]
  by_cases ha : Shape.isConstant a
  · rw [if_pos ha, if_pos ha, constantTerm_of, Checked.ok_bind, scale_of]
    rfl
  · rw [if_neg ha, if_neg ha]
    exact congrArg (· >>= _) (general_toArray strategy a b)

end Raw

end TensorChebyshev
