/-!
The kinds of number that the library computes with, as operations only. No laws are asked for:
the same definitions serve floating point, where sums depend on their order, and exact rings.

Coefficients have a type `T` of scalars; norms, tolerances and cosines belong to a real line
`R`, from which scalars are made by `Scalar.ofReal`.
-/

namespace TensorChebyshev

/-- Ring operations, a division and an equality test. -/
class Arithmetic (α : Type) extends
  Zero α, One α, Add α, Sub α, Neg α, Mul α, Div α, BEq α

/-- The zero test: equality with zero. -/
def isZero {α : Type} [Arithmetic α] (x : α) : Bool := x == 0

/-- The reals in which magnitudes are compared and nodes are computed. -/
class RealLine (R : Type) extends Arithmetic R where
  /-- The order, false as soon as one side is not a number. -/
  le : R → R → Bool
  /-- Neither infinite nor undefined. -/
  isFinite : R → Bool
  /-- A count as a real. -/
  ofNat : Nat → R
  /-- The cosine of `π j / m`. -/
  cosPi : (j m : Nat) → R
  /-- The cosine of `t / n` of a full turn. -/
  cosTurn : (t n : Nat) → R
  /-- The sine of `t / n` of a full turn. -/
  sinTurn : (t n : Nat) → R

namespace RealLine

variable {R : Type} [RealLine R]

def two : R := 1 + 1

def half : R := 1 / two

/-- What is not below or equal to itself is not a number. -/
def isNaN (x : R) : Bool := !le x x

def ofInt : Int → R
  | .ofNat n => ofNat n
  | .negSucc n => -ofNat (n + 1)

/-- The Gauss–Lobatto nodes `cos (π j / m)` for `j ≤ m`; the single node is `1`. -/
def lobattoNodes (m : Nat) : Vector R (m + 1) :=
  if m = 0 then Vector.replicate (m + 1) 1 else Vector.ofFn fun j => cosPi j m

end RealLine

/-- Scalars over a real line. -/
class Scalar (T : Type) (R : outParam Type) extends Arithmetic T where
  /-- The scalar of a real number. -/
  ofReal : R → T
  /-- The size of a scalar, for norms and convergence tests. -/
  magnitude : T → R

namespace Scalar

variable {T R : Type} [RealLine R] [Scalar T R]

def two : T := ofReal RealLine.two

def half : T := ofReal RealLine.half

def ofNat (n : Nat) : T := ofReal (RealLine.ofNat n)

def ofInt (n : Int) : T := ofReal (RealLine.ofInt n)

/-- The polynomial with coefficients `c₀, c₁, …` at `t`, by Horner's rule. -/
def horner : List T → T → T
  | [], _ => 0
  | c :: cs, t => horner cs t * t + c

end Scalar

/-- A product and a sum that are rounded once. -/
class Fused (F : Type) where
  /-- The number `a b + c`. -/
  mulAdd : (a b c : F) → F

/-- What an ordered scalar type has besides: absolute values and hypotenuses. -/
class RealScalar (F : Type) where
  abs : F → F
  /-- The square root of `x² + y²`. -/
  hypot : (x y : F) → F

end TensorChebyshev
