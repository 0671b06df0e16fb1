import Mathlib.Algebra.Ring.Basic
import TensorChebyshev.Scalar.Basic

/-!
# Exact scalars

The library asks scalars for operations only. Here are the laws under which
it computes without rounding: a commutative ring whose zero test is equality
with zero. `ExactRing.toCommRing` hands the operations to the theory of rings
unchanged, so what is proved there speaks of the library's own sums and
products.
-/

namespace TensorChebyshev

/-- Arithmetic of a commutative ring, with a zero test that means what it says. -/
class ExactRing (T : Type) [Arithmetic T] : Prop where
  add_assoc : ∀ a b c : T, a + b + c = a + (b + c)
  add_comm : ∀ a b : T, a + b = b + a
  zero_add : ∀ a : T, 0 + a = a
  neg_add_cancel : ∀ a : T, -a + a = 0
  sub_eq_add_neg : ∀ a b : T, a - b = a + -b
  mul_assoc : ∀ a b c : T, a * b * c = a * (b * c)
  mul_comm : ∀ a b : T, a * b = b * a
  one_mul : ∀ a : T, 1 * a = a
  add_mul : ∀ a b c : T, (a + b) * c = a * c + b * c
  isZero_iff : ∀ a : T, isZero a = true ↔ a = 0

namespace ExactRing

variable (T : Type) [Arithmetic T] [ExactRing T]

/-- Sums cancel, which needs no more than the laws of addition. -/
private theorem eq_zero_of_add_self {a : T} (h : a + a = a) : a = 0 :=
  calc a = 0 + a := (zero_add a).symm
    _ = -a + a + a := by rw [neg_add_cancel]
    _ = -a + (a + a) := add_assoc ..
    _ = 0 := by rw [h, neg_add_cancel]

private theorem zero_mul_exact (a : T) : 0 * a = 0 := by
  apply eq_zero_of_add_self
  rw [← add_mul, zero_add]

/-- The library's operations as a commutative ring. -/
@[reducible]
def toCommRing : CommRing T where
  add_assoc := add_assoc
  zero_add := zero_add
  add_zero := fun a => by rw [add_comm, zero_add]
  add_comm := add_comm
  neg_add_cancel := neg_add_cancel
  sub_eq_add_neg := sub_eq_add_neg
  mul_assoc := mul_assoc
  one_mul := one_mul
  mul_one := fun a => by rw [mul_comm, one_mul]
  mul_comm := mul_comm
  left_distrib := fun a b c => by
    rw [mul_comm, add_mul, mul_comm b, mul_comm c]
  right_distrib := add_mul
  zero_mul := zero_mul_exact T
  mul_zero := fun a => by rw [mul_comm, zero_mul_exact]
  nsmul := nsmulRec
  zsmul := zsmulRec

end ExactRing

end TensorChebyshev
