import TensorChebyshev.Index.GradedBasis

/-!
Sums of Chebyshev series by the backward recurrence `b_k = c_k + 2 x b_{k+1} - b_{k+2}`. What is
summed need not be a number: it is enough to add, to subtract, and to multiply by the argument.
A series in several variables is summed variable by variable, the last one first.
-/

namespace TensorChebyshev

variable {V : Type} [Zero V] [Add V] [Sub V]

/-- The first two sums `(b_1, b_2)` of the recurrence for the coefficients `c_1, c_2, …`. It
starts at the last coefficient. -/
def backward (timesX : V → V) : List V → V × V
  | [] => (0, 0)
  | [c] => (c, 0)
  | c :: d :: cs =>
    let b := backward timesX (d :: cs)
    let x := timesX b.1
    (c + x + x - b.2, b.1)

/-- The sum of a Chebyshev series in one variable. -/
def clenshaw (timesX : V → V) : List V → V
  | [] => 0
  | [c] => c
  | c :: d :: cs =>
    let b := backward timesX (d :: cs)
    c + timesX b.1 - b.2

namespace GradedBasis

/-- The coefficients of a basis in groups, one for each position of the basis without the last
variable: those of its extensions by a last exponent, in order. -/
def groups {V : Type} (b : GradedBasis) (count : Nat) (cs : List V) : List (List V) :=
  let keyed := cs.zipIdx.map fun c => (b.parent? c.2, c.1)
  (List.range count).map fun p => (keyed.filter fun c => c.1 == some p).map Prod.snd

/-- Sums over the last variable, the one before it, and so on down to the first one. -/
def sumFrom (times : Nat → V → V) :
    (last : Nat) → GradedBasis → List V → Except IndexError V
  | 0, _, cs => .ok (clenshaw (times 0) cs)
  | v + 1, b, cs => do
    let smaller ← GradedBasis.build (v + 1) b.degree
    sumFrom times v smaller ((b.groups smaller.size cs).map (clenshaw (times (v + 1))))

/-- The sum of a series in the variables of a basis; `times v` multiplies by variable `v`. -/
def sum (b : GradedBasis) (times : Nat → V → V) (cs : List V) : Except IndexError V :=
  sumFrom times (b.nvar - 1) b cs

end GradedBasis

end TensorChebyshev
