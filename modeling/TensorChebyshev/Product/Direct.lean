import TensorChebyshev.Shape
import TensorChebyshev.Scalar.Basic

/-!
Multiplication through the product rows of a shape: every pair of nonzero coefficients adds its
weighted product to the coefficients of the pair's terms, in the order of the positions.
-/

namespace TensorChebyshev

variable {T R : Type} [RealLine R] [Scalar T R]

/-- The weight of a product that is halved `h` times. -/
def halvedWeight : (h : Nat) → T
  | 0 => 1
  | h + 1 => halvedWeight h * Scalar.half

def support {n : Nat} (v : Vector T n) : List (T × Nat) :=
  v.toList.zipIdx.filter fun c => !isZero c.1

/-- Adds `w` to the coefficient at position `k`. -/
def accumulate {n : Nat} (w : T) (v : Vector T n) (k : Nat) : Vector T n :=
  if h : k < n then v.set k (v[k] + w) else v

namespace Shape

variable (s : Shape)

/-- Adds the product of the terms `a T_i` and `b T_j`. -/
def addProduct (v : s.Coefficients T) (a b : T × Nat) : s.Coefficients T :=
  let row := s.product a.2 b.2
  row.terms.foldl (accumulate (a.1 * b.1 * halvedWeight row.halvings)) v

/-- The truncated product, pair by pair. -/
def direct (a b : s.Coefficients T) : s.Coefficients T :=
  let right := support b
  (support a).foldl (fun v x => right.foldl (fun v y => s.addProduct v x y) v)
    (Vector.replicate s.size 0)

end Shape

end TensorChebyshev
