import Mathlib.Analysis.SpecialFunctions.Trigonometric.Basic
import TensorChebyshev.Proofs.Scalar.Exact

/-!
# Real scalars

The reals as a line of the library, with the exact cosines, and the scalars
that contain them. A real algebra is an exact ring into which the reals embed
and in which the quotient by an invertible scalar is the product with its
inverse.
-/

namespace TensorChebyshev

/-! ## The line -/

noncomputable instance : Arithmetic ℝ where
  beq x y := @decide (x = y) (Classical.dec _)

noncomputable instance : RealLine ℝ where
  le x y := @decide (x ≤ y) (Classical.dec _)
  isFinite _ := true
  ofNat n := n
  cosPi j m := Real.cos (Real.pi * j / m)
  cosTurn t n := Real.cos (2 * Real.pi * t / n)
  sinTurn t n := Real.sin (2 * Real.pi * t / n)

noncomputable instance : Scalar ℝ ℝ where
  ofReal := id
  magnitude x := |x|

noncomputable instance : RealScalar ℝ where
  abs x := |x|
  hypot x y := Real.sqrt (x * x + y * y)

theorem two_eq_real : (RealLine.two : ℝ) = 2 := one_add_one_eq_two

instance : ExactRing ℝ where
  add_assoc := add_assoc
  add_comm := add_comm
  zero_add := zero_add
  neg_add_cancel := neg_add_cancel
  sub_eq_add_neg := sub_eq_add_neg
  mul_assoc := mul_assoc
  mul_comm := mul_comm
  one_mul := one_mul
  add_mul := add_mul
  isZero_iff _ := decide_eq_true_iff

/-! ## Algebras over the line -/

/-- Exact scalars over the reals. -/
class RealAlgebra (T : Type) [Scalar T ℝ] : Prop extends ExactRing T where
  ofReal_one : (Scalar.ofReal 1 : T) = 1
  ofReal_add : ∀ x y : ℝ, (Scalar.ofReal (x + y) : T) = Scalar.ofReal x + Scalar.ofReal y
  ofReal_mul : ∀ x y : ℝ, (Scalar.ofReal (x * y) : T) = Scalar.ofReal x * Scalar.ofReal y
  div_eq : ∀ a b c : T, b * c = 1 → a / b = a * c

instance : RealAlgebra ℝ where
  ofReal_one := rfl
  ofReal_add _ _ := rfl
  ofReal_mul _ _ := rfl
  div_eq a b c h := by rw [eq_inv_of_mul_eq_one_right h, ← div_eq_mul_inv]

attribute [local instance] ExactRing.toCommRing

namespace RealAlgebra

variable (T : Type) [Scalar T ℝ] [RealAlgebra T]

/-- The embedding of the reals. -/
def embed : ℝ →+* T :=
  RingHom.mk' ⟨⟨Scalar.ofReal, ofReal_one⟩, ofReal_mul⟩ ofReal_add

variable {T}

theorem embed_apply (x : ℝ) : embed T x = Scalar.ofReal x := rfl

theorem half_eq : (Scalar.half : T) = embed T (1 / 2) := by
  rw [embed_apply, Scalar.half, RealLine.half, two_eq_real]

theorem two_eq : (Scalar.two : T) = embed T 2 := by
  rw [embed_apply, Scalar.two, two_eq_real]

theorem ofNat_eq (n : Nat) : (Scalar.ofNat n : T) = embed T n := rfl

theorem half_add_half : (Scalar.half : T) + Scalar.half = 1 := by
  rw [half_eq, ← map_add, add_halves, map_one]

theorem one_div_ofNat {n : Nat} (h : 0 < n) : (1 / Scalar.ofNat n : T) = embed T (1 / n) := by
  have hn : (n : ℝ) ≠ 0 := Nat.cast_ne_zero.mpr h.ne'
  rw [div_eq 1 (Scalar.ofNat n : T) (embed T (1 / n)), one_mul]
  rw [ofNat_eq, ← map_mul, mul_one_div_cancel hn, map_one]

end RealAlgebra

end TensorChebyshev
