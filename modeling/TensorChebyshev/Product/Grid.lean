import TensorChebyshev.Shape
import TensorChebyshev.Cosine.Interpolation

/-!
Multiplication by values. On the grid of `2 d + 1` Gauss–Lobatto nodes per variable a polynomial
of degree `2 d` in each variable is determined by its values, so the full product of two
expansions of degree `d` is found by multiplying values; the coefficients of the shape are then
read off. Grid points and tensor coefficients are numbered with the first variable fastest.
-/

namespace TensorChebyshev

/-- The largest grid that is worked on. -/
def maxGridPoints : Nat := 16777216

def gridPoints (degree : Nat) : Nat := 2 * degree + 1

/-- The number of points of a grid with `p` nodes on each of `n` axes. -/
def gridSize (p : Nat) : (n : Nat) → Nat
  | 0 => 1
  | n + 1 => gridSize p n * p

/-- The place of an exponent tuple among all tuples of exponents below `p`. -/
def gridOffset (p : Nat) : Tuple → Nat
  | [] => 0
  | e :: rest => e + p * gridOffset p rest

section Tensor

variable {T : Type} {p : Nat}

/-- Applies `f` along the first axis, then along the others, to data in `n` axes of `p` entries
each. -/
def alongAxes (f : Vector T p → Vector T p) :
    (n : Nat) → Vector T (gridSize p n) → Vector T (gridSize p n)
  | 0, data => data
  | n + 1, data =>
    let rows : Vector (Vector T p) (gridSize p n) := Vector.ofFn fun r =>
      f (Vector.ofFn fun j =>
        have : r.val * p + j.val < gridSize p n * p := by
          have h : (r.val + 1) * p ≤ gridSize p n * p := Nat.mul_le_mul_right p r.isLt
          have := j.isLt
          rw [Nat.add_mul, Nat.one_mul] at h
          omega
        data[r.val * p + j.val])
    let columns : Vector (Vector T (gridSize p n)) p := Vector.ofFn fun j =>
      alongAxes f n (rows.map (·[j]))
    Vector.ofFn fun k =>
      have hp : 0 < p := by
        rcases Nat.eq_zero_or_pos p with h | h
        · have := k.isLt
          simp [h, gridSize] at this
        · exact h
      have : k.val % p < p := Nat.mod_lt _ hp
      have : k.val / p < gridSize p n := (Nat.div_lt_iff_lt_mul hp).mpr k.isLt
      columns[k.val % p][k.val / p]

end Tensor

namespace Shape

variable (s : Shape)

/-- The grid is small enough to be worked on. -/
def HasGrid : Prop := gridSize (gridPoints s.degree) s.nvar ≤ maxGridPoints

instance : Decidable s.HasGrid :=
  inferInstanceAs (Decidable (gridSize (gridPoints s.degree) s.nvar ≤ maxGridPoints))

abbrev GridData (T : Type) : Type := Vector T (gridSize (gridPoints s.degree) s.nvar)

/-- The grid offsets of the basis functions. -/
def offsets : List Nat := s.tuples.toList.map (gridOffset (gridPoints s.degree))

variable {T R : Type} [RealLine R] [Scalar T R]

/-- The coefficients as a tensor, zero where the shape has no basis function. -/
def scatter (c : s.Coefficients T) : s.GridData T :=
  (c.toList.zip s.offsets).foldl (fun data x => data.setIfInBounds x.2 x.1)
    (Vector.replicate _ 0)

/-- The coefficients of the shape out of a tensor. -/
def gather (data : s.GridData T) : s.Coefficients T :=
  Vector.ofFn fun i =>
    have : i.val < s.tuples.size := i.isLt
    (data[gridOffset (gridPoints s.degree) s.tuples[i.val]]?).getD 0

variable [CosineTransform T]

/-- The values of an expansion at the grid points. -/
def gridValues (c : s.Coefficients T) : s.GridData T :=
  alongAxes valuesOfCoefficients s.nvar (s.scatter c)

/-- The coefficients of the shape out of values at the grid points. -/
def gridCoefficients (values : s.GridData T) : s.Coefficients T :=
  s.gather (alongAxes coefficientsOfValues s.nvar values)

def byValues (a b : s.Coefficients T) : s.Coefficients T :=
  s.gridCoefficients ((s.gridValues a).zipWith (· * ·) (s.gridValues b))

end Shape

end TensorChebyshev
