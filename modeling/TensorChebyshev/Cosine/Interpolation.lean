import TensorChebyshev.Cosine.Sum

/-!
Values at the Gauss–Lobatto nodes and Chebyshev coefficients. With nodes `x_j = cos (π j / M)`

* `f (x_j) = Σ_k c_k cos (π j k / M)`, and
* `c_k = (2 / M) Σ_j f (x_j) cos (π j k / M)`, where the first and the last term of the sum count
  half; for `k = 0` and `k = M` the coefficient is half of this.

Both are cosine transforms with rescaled ends, and each undoes the other. A single value is its
own coefficient.
-/

namespace TensorChebyshev

variable {T R : Type}

/-- The first and the last entry times `c`. -/
def scaleEnds [Mul T] {m : Nat} (c : T) (v : Vector T (m + 2)) : Vector T (m + 2) :=
  v.mapIdx fun k x => if k = 0 ∨ k = m + 1 then x * c else x

variable [RealLine R] [Scalar T R] [CosineTransform T]

/-- The coefficients of the polynomial that takes the given values at the nodes. -/
def coefficientsOfValues : {n : Nat} → Vector T n → Vector T n
  | 0, v => v
  | 1, v => v
  | m + 2, v =>
    let weight : T := 1 / Scalar.ofNat (m + 1)
    scaleEnds Scalar.half ((CosineTransform.dct v).map (· * weight))

/-- The values at the nodes of the polynomial with the given coefficients. -/
def valuesOfCoefficients : {n : Nat} → Vector T n → Vector T n
  | 0, c => c
  | 1, c => c
  | _ + 2, c => (CosineTransform.dct (scaleEnds Scalar.two c)).map (· * Scalar.half)

end TensorChebyshev
