import Mathlib
import TensorChebyshev.Proofs.Scalar.Parts

/-!
# Magnitudes

The laws under which norms bound anything. Magnitudes of sums and products are
bounded by those of the operands, and over the rationals, the reals and the
complex numbers the magnitude is the absolute value: it is multiplicative, and
everything but zero has an inverse by which division multiplies. The magnitude of
a dual number is the sum over its parts, which only bounds products.
-/

namespace TensorChebyshev

/-- Exact scalars whose magnitude bounds sums and products, and which halving halves. -/
class SubmultiplicativeRing (T : Type) [Scalar T ℝ] : Prop extends ExactRing T where
  magnitude_nonneg : ∀ x : T, 0 ≤ Scalar.magnitude x
  magnitude_add_le : ∀ x y : T,
    Scalar.magnitude (x + y) ≤ Scalar.magnitude x + Scalar.magnitude y
  magnitude_mul_le : ∀ x y : T,
    Scalar.magnitude (x * y) ≤ Scalar.magnitude x * Scalar.magnitude y
  magnitude_half_mul : ∀ x : T, Scalar.magnitude (Scalar.half * x) = Scalar.magnitude x / 2

/-- The same for scalars in which two halves make one. -/
class MeasuredRing (T : Type) [Scalar T ℝ] : Prop extends SubmultiplicativeRing T where
  half_add_half : (Scalar.half : T) + Scalar.half = 1

/-- Exact fields whose magnitude is an absolute value. -/
class ValuedField (T : Type) [Scalar T ℝ] : Prop extends MeasuredRing T where
  magnitude_one : Scalar.magnitude (1 : T) = 1
  magnitude_mul : ∀ x y : T,
    Scalar.magnitude (x * y) = Scalar.magnitude x * Scalar.magnitude y
  exists_inverse : ∀ x : T, x ≠ 0 → ∃ y, x * y = 1
  div_eq : ∀ x y z : T, y * z = 1 → x / y = x * z

attribute [local instance] ExactRing.toCommRing

namespace SubmultiplicativeRing

variable {T : Type} [Scalar T ℝ] [SubmultiplicativeRing T]

theorem magnitude_zero : Scalar.magnitude (0 : T) = 0 := by
  have h := magnitude_half_mul (0 : T)
  rw [mul_zero] at h
  linarith

end SubmultiplicativeRing

namespace ValuedField

variable {T : Type} [Scalar T ℝ] [ValuedField T]

theorem magnitude_neg (x : T) : Scalar.magnitude (-x) = Scalar.magnitude x := by
  have hsquare : Scalar.magnitude (-1 : T) * Scalar.magnitude (-1 : T) = 1 := by
    rw [← magnitude_mul, neg_mul_neg, mul_one, magnitude_one]
  have hone : Scalar.magnitude (-1 : T) = 1 := by
    nlinarith [SubmultiplicativeRing.magnitude_nonneg (-1 : T)]
  rw [← neg_one_mul, magnitude_mul, hone, one_mul]

/-- The quotient of one is the inverse. -/
theorem mul_one_div {x : T} (h : x ≠ 0) : x * (1 / x) = 1 := by
  obtain ⟨y, hy⟩ := exists_inverse x h
  rw [div_eq 1 x y hy, one_mul, hy]

theorem div_eq_mul_one_div (x : T) {y : T} (h : y ≠ 0) : x / y = x * (1 / y) :=
  div_eq x y (1 / y) (mul_one_div h)

theorem magnitude_one_div {x : T} (h : x ≠ 0) :
    Scalar.magnitude (1 / x) = 1 / Scalar.magnitude x := by
  have hmul : Scalar.magnitude x * Scalar.magnitude (1 / x) = 1 := by
    rw [← magnitude_mul, mul_one_div h, magnitude_one]
  exact eq_one_div_of_mul_eq_one_right hmul

variable (T) in
theorem one_ne_zero : (1 : T) ≠ 0 := by
  intro h
  have hone := magnitude_one (T := T)
  rw [h, SubmultiplicativeRing.magnitude_zero] at hone
  exact zero_ne_one hone

variable (T) in
theorem magnitude_two : Scalar.magnitude (1 + 1 : T) = 2 := by
  have hhalf : Scalar.half * (1 + 1 : T) = 1 := by
    rw [mul_add, mul_one, MeasuredRing.half_add_half]
  have h := SubmultiplicativeRing.magnitude_half_mul (1 + 1 : T)
  rw [hhalf, magnitude_one] at h
  exact ((div_eq_iff two_ne_zero).mp h.symm).trans (one_mul 2)

end ValuedField

/-! ## Rational numbers -/

noncomputable instance : Arithmetic ℚ where
  beq x y := decide (x = y)

/-- Rational scalars take the real constants that are rational, and exact products,
quotients and values need no others. -/
noncomputable instance : Scalar ℚ ℝ where
  ofReal := Function.invFun fun q : ℚ => (q : ℝ)
  magnitude q := |(q : ℝ)|

theorem ofReal_ratCast (q : ℚ) : (Scalar.ofReal (q : ℝ) : ℚ) = q :=
  Function.leftInverse_invFun Rat.cast_injective q

theorem half_rat : (Scalar.half : ℚ) = 1 / 2 := by
  have hhalf : (RealLine.half : ℝ) = ((1 / 2 : ℚ) : ℝ) := by
    rw [RealLine.half, two_eq_real]
    norm_num
  rw [Scalar.half, hhalf, ofReal_ratCast]

instance : ValuedField ℚ where
  add_assoc := add_assoc
  add_comm := add_comm
  zero_add := zero_add
  neg_add_cancel := neg_add_cancel
  sub_eq_add_neg := sub_eq_add_neg
  mul_assoc := mul_assoc
  mul_comm := mul_comm
  one_mul := one_mul
  add_mul := add_mul
  isZero_iff _ := decide_eq_true_iff
  half_add_half := by rw [half_rat, add_halves]
  magnitude_nonneg q := abs_nonneg (q : ℝ)
  magnitude_add_le p q := by
    show |((p + q : ℚ) : ℝ)| ≤ _
    rw [Rat.cast_add]
    exact abs_add_le _ _
  magnitude_mul_le p q := by
    show |((p * q : ℚ) : ℝ)| ≤ _
    rw [Rat.cast_mul, abs_mul]
    exact le_refl _
  magnitude_half_mul q := by
    show |((Scalar.half * q : ℚ) : ℝ)| = |(q : ℝ)| / 2
    rw [half_rat, Rat.cast_mul, abs_mul]
    norm_num
    ring
  magnitude_one := by
    show |((1 : ℚ) : ℝ)| = 1
    rw [Rat.cast_one, abs_one]
  magnitude_mul p q := by
    show |((p * q : ℚ) : ℝ)| = _
    rw [Rat.cast_mul, abs_mul]
    rfl
  exists_inverse q h := ⟨q⁻¹, mul_inv_cancel₀ h⟩
  div_eq p q r h := by rw [eq_inv_of_mul_eq_one_right h, ← div_eq_mul_inv]

/-! ## Real numbers -/

instance : ValuedField ℝ where
  half_add_half := RealAlgebra.half_add_half
  magnitude_nonneg x := abs_nonneg x
  magnitude_add_le x y := abs_add_le x y
  magnitude_mul_le x y := (abs_mul x y).le
  magnitude_half_mul x := by
    show |(Scalar.half : ℝ) * x| = |x| / 2
    rw [RealAlgebra.half_eq, abs_mul]
    show |(1 / 2 : ℝ)| * |x| = |x| / 2
    rw [abs_of_pos one_half_pos]
    ring
  magnitude_one := abs_one
  magnitude_mul x y := abs_mul x y
  exists_inverse x h := ⟨x⁻¹, mul_inv_cancel₀ h⟩
  div_eq := RealAlgebra.div_eq

/-! ## Complex numbers -/

namespace Complex

/-- The same number among the complex numbers of analysis. -/
def toField (a : Complex ℝ) : ℂ := ⟨a.re, a.im⟩

theorem toField_add (a b : Complex ℝ) : toField (a + b) = toField a + toField b := rfl

theorem toField_mul (a b : Complex ℝ) : toField (a * b) = toField a * toField b := rfl

theorem magnitude_eq_norm (a : Complex ℝ) : Scalar.magnitude a = ‖toField a‖ := by
  show |Real.sqrt (a.re * a.re + a.im * a.im)| = ‖toField a‖
  rw [abs_of_nonneg (Real.sqrt_nonneg _), Complex.norm_eq_sqrt_sq_add_sq, sq, sq]
  rfl

theorem toField_half : toField Scalar.half = ((1 / 2 : ℝ) : ℂ) := by
  rw [← two_eq_real]
  rfl

theorem exists_inverse (a : Complex ℝ) (h : a ≠ 0) : ∃ b, a * b = 1 := by
  have hn : a.re * a.re + a.im * a.im ≠ 0 := by
    intro hzero
    have hre : a.re * a.re = 0 := by nlinarith [mul_self_nonneg a.re, mul_self_nonneg a.im]
    have him : a.im * a.im = 0 := by nlinarith [mul_self_nonneg a.re, mul_self_nonneg a.im]
    exact h (Complex.ext (mul_self_eq_zero.mp hre) (mul_self_eq_zero.mp him))
  refine ⟨⟨a.re / (a.re * a.re + a.im * a.im), -a.im / (a.re * a.re + a.im * a.im)⟩,
    Complex.ext ?_ ?_⟩
  · show a.re * (a.re / (a.re * a.re + a.im * a.im))
      - a.im * (-a.im / (a.re * a.re + a.im * a.im)) = 1
    rw [← mul_div_assoc, ← mul_div_assoc, ← sub_div, mul_neg, sub_neg_eq_add, div_self hn]
  · show a.re * (-a.im / (a.re * a.re + a.im * a.im))
      + a.im * (a.re / (a.re * a.re + a.im * a.im)) = 0
    ring

end Complex

instance : ValuedField (Complex ℝ) where
  half_add_half := RealAlgebra.half_add_half
  magnitude_nonneg a := by
    rw [Complex.magnitude_eq_norm]
    exact norm_nonneg _
  magnitude_add_le a b := by
    rw [Complex.magnitude_eq_norm, Complex.magnitude_eq_norm, Complex.magnitude_eq_norm,
      Complex.toField_add]
    exact norm_add_le _ _
  magnitude_mul_le a b := by
    rw [Complex.magnitude_eq_norm, Complex.magnitude_eq_norm, Complex.magnitude_eq_norm,
      Complex.toField_mul]
    exact norm_mul_le _ _
  magnitude_half_mul a := by
    rw [Complex.magnitude_eq_norm, Complex.magnitude_eq_norm, Complex.toField_mul,
      Complex.toField_half, norm_mul, Complex.norm_real, Real.norm_of_nonneg one_half_pos.le]
    ring
  magnitude_one := by
    rw [Complex.magnitude_eq_norm]
    exact norm_one
  magnitude_mul a b := by
    rw [Complex.magnitude_eq_norm, Complex.magnitude_eq_norm, Complex.magnitude_eq_norm,
      Complex.toField_mul, norm_mul]
  exists_inverse := Complex.exists_inverse
  div_eq := RealAlgebra.div_eq

/-! ## Dual numbers -/

namespace Dual

variable {F : Type} [Scalar F ℝ]

theorem magnitude_eq (a : Dual F) :
    Scalar.magnitude a = Scalar.magnitude a.re + Scalar.magnitude a.eps := rfl

theorem half_mul [ExactRing F] (a : Dual F) :
    Scalar.half * a = ⟨Scalar.half * a.re, Scalar.half * a.eps⟩ := by
  ext
  · rfl
  · show Scalar.half * a.eps + 0 * a.re = Scalar.half * a.eps
    rw [zero_mul, add_zero]

end Dual

/-- Over any such scalars: the product of the infinitesimal parts is lost. -/
instance {F : Type} [Scalar F ℝ] [SubmultiplicativeRing F] : SubmultiplicativeRing (Dual F) where
  magnitude_nonneg a :=
    add_nonneg (SubmultiplicativeRing.magnitude_nonneg a.re)
      (SubmultiplicativeRing.magnitude_nonneg a.eps)
  magnitude_add_le a b := by
    have hre := SubmultiplicativeRing.magnitude_add_le a.re b.re
    have heps := SubmultiplicativeRing.magnitude_add_le a.eps b.eps
    simp only [Dual.magnitude_eq, Dual.add_re, Dual.add_eps]
    linarith
  magnitude_mul_le a b := by
    have hre := SubmultiplicativeRing.magnitude_mul_le a.re b.re
    have hsum := SubmultiplicativeRing.magnitude_add_le (a.re * b.eps) (a.eps * b.re)
    have hleft := SubmultiplicativeRing.magnitude_mul_le a.re b.eps
    have hright := SubmultiplicativeRing.magnitude_mul_le a.eps b.re
    have hlost := mul_nonneg (SubmultiplicativeRing.magnitude_nonneg a.eps)
      (SubmultiplicativeRing.magnitude_nonneg b.eps)
    simp only [Dual.magnitude_eq, Dual.mul_re, Dual.mul_eps]
    linarith
  magnitude_half_mul a := by
    rw [Dual.half_mul, Dual.magnitude_eq, Dual.magnitude_eq,
      SubmultiplicativeRing.magnitude_half_mul, SubmultiplicativeRing.magnitude_half_mul, add_div]

end TensorChebyshev
