import TensorChebyshev.Fourier.Butterfly
import TensorChebyshev.Fourier.Convolution
import TensorChebyshev.Fourier.Table

/-!
Plans for fast Fourier transforms. A plan says how a transform of its length is put together from
sums, butterflies, tables and convolutions, and `FourierPlan.run` follows it. Plans of one length
are for the same transform and differ in rounding, and in numbers that are too large or undefined.

Plans serve `FourierMethod.fast`, which runs for the machine's number types only, where no sum is
exact. Theorems about cosine transforms hold of any method that computes the defining sum.
-/

namespace TensorChebyshev

/-- How to compute a Fourier transform of a given length. -/
inductive FourierPlan : Nat → Type where
  /-- By the defining sums. -/
  | sums (n : Nat) : FourierPlan n
  /-- By the butterflies for two, three and four. -/
  | two : FourierPlan 2
  | three : FourierPlan 3
  | four : FourierPlan 4
  /-- In pairs around the first entry. -/
  | odd (h : Nat) (centre : Centre) : FourierPlan (2 * h + 1)
  /-- In a table of `r` rows and `l` columns that is written row by row. -/
  | grid {r l : Nat} (factors : Factors) (columns : FourierPlan r) (rows : FourierPlan l) :
      FourierPlan (r * l)
  /-- In a table with coprime sides. -/
  | coprime {r l : Nat} (sides : Nat.gcd r l = 1) (columns : FourierPlan r)
      (rows : FourierPlan l) : FourierPlan (r * l)
  /-- For a prime length, by a generator. -/
  | cyclic {m : Nat} (g : Nat) (generator : generates (m + 1) g = true) (inner : FourierPlan m) :
      FourierPlan (m + 1)
  /-- By a chirp. -/
  | chirp {n m : Nat} (room : 2 * n ≤ m + 1) (inner : FourierPlan m) : FourierPlan n

namespace FourierPlan

variable {F R : Type} [RealLine R] [Scalar F R] [Fused F]

def run : {n : Nat} → FourierPlan n → Vector (Complex F) n → Vector (Complex F) n
  | _, .sums _ => fourier
  | _, .two => butterfly2
  | _, .three => butterfly3
  | _, .four => butterfly4
  | _, .odd _ centre => butterflyOdd centre
  | _, .grid factors columns rows => gridTransform factors columns.run rows.run
  | _, .coprime _ columns rows => coprimeTransform columns.run rows.run
  | _, .cyclic g _ inner => cyclicTransform g inner.run
  | _, .chirp _ inner => chirpTransform inner.run

end FourierPlan

end TensorChebyshev
