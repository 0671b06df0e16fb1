import TensorChebyshev.Scalar.Basic

/-!
The cosine transform: the class of scalars that have one, and the transform as its defining sum,
which every scalar type has.
-/

namespace TensorChebyshev

/-- The unnormalised cosine transform `Y_k = d_0 + (-1)^k d_M + 2 Σ d_j cos (π j k / M)`, the
sum over `0 < j < M`, of `d_0, …, d_M`. Fewer than two entries stay as they are. -/
class CosineTransform (T : Type) where
  dct : {n : Nat} → Vector T n → Vector T n

variable {T R : Type} [RealLine R] [Scalar T R]

/-- The cosine of `π j k / m` as a scalar, with the phase reduced to one period first, so that
large products of indices stay accurate. -/
def cosineAt (m j k : Nat) : T := Scalar.ofReal (RealLine.cosPi (j * k % (2 * m)) m)

def cosineSums : {n : Nat} → Vector T n → Vector T n
  | 0, d => d
  | 1, d => d
  | m + 2, d => Vector.ofFn fun k =>
    let ends := if k.val % 2 = 0 then d[0] + d[m + 1] else d[0] - d[m + 1]
    Fin.foldl m
      (fun acc j => acc + Scalar.two * cosineAt (m + 1) (j.val + 1) k * d[j.val + 1]) ends

@[reducible] def CosineTransform.bySums : CosineTransform T := ⟨cosineSums⟩

end TensorChebyshev
