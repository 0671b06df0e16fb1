import Mathlib.Tactic.LinearCombination
import TensorChebyshev.Scalar.Complex
import TensorChebyshev.Scalar.Dual
import TensorChebyshev.Proofs.Scalar.Real

/-!
# Scalars with two parts

Complex and dual numbers over exact scalars are exact scalars, and over a real
algebra they are real algebras. All laws are read off the parts.
-/

namespace TensorChebyshev

attribute [local instance] ExactRing.toCommRing

@[ext] theorem Complex.ext {F : Type} {a b : Complex F} (hre : a.re = b.re)
    (him : a.im = b.im) : a = b := by
  cases a
  cases b
  congr

@[ext] theorem Dual.ext {F : Type} {a b : Dual F} (hre : a.re = b.re)
    (heps : a.eps = b.eps) : a = b := by
  cases a
  cases b
  congr

/-! ## Parts of results -/

section Parts

variable {F : Type} [Arithmetic F]

namespace Complex

@[simp] theorem zero_re : (0 : Complex F).re = 0 := rfl
@[simp] theorem zero_im : (0 : Complex F).im = 0 := rfl
@[simp] theorem one_re : (1 : Complex F).re = 1 := rfl
@[simp] theorem one_im : (1 : Complex F).im = 0 := rfl
@[simp] theorem add_re (a b : Complex F) : (a + b).re = a.re + b.re := rfl
@[simp] theorem add_im (a b : Complex F) : (a + b).im = a.im + b.im := rfl
@[simp] theorem sub_re (a b : Complex F) : (a - b).re = a.re - b.re := rfl
@[simp] theorem sub_im (a b : Complex F) : (a - b).im = a.im - b.im := rfl
@[simp] theorem neg_re (a : Complex F) : (-a).re = -a.re := rfl
@[simp] theorem neg_im (a : Complex F) : (-a).im = -a.im := rfl
@[simp] theorem mul_re (a b : Complex F) : (a * b).re = a.re * b.re - a.im * b.im := rfl
@[simp] theorem mul_im (a b : Complex F) : (a * b).im = a.re * b.im + a.im * b.re := rfl

end Complex

namespace Dual

@[simp] theorem zero_re : (0 : Dual F).re = 0 := rfl
@[simp] theorem zero_eps : (0 : Dual F).eps = 0 := rfl
@[simp] theorem one_re : (1 : Dual F).re = 1 := rfl
@[simp] theorem one_eps : (1 : Dual F).eps = 0 := rfl
@[simp] theorem add_re (a b : Dual F) : (a + b).re = a.re + b.re := rfl
@[simp] theorem add_eps (a b : Dual F) : (a + b).eps = a.eps + b.eps := rfl
@[simp] theorem sub_re (a b : Dual F) : (a - b).re = a.re - b.re := rfl
@[simp] theorem sub_eps (a b : Dual F) : (a - b).eps = a.eps - b.eps := rfl
@[simp] theorem neg_re (a : Dual F) : (-a).re = -a.re := rfl
@[simp] theorem neg_eps (a : Dual F) : (-a).eps = -a.eps := rfl
@[simp] theorem mul_re (a b : Dual F) : (a * b).re = a.re * b.re := rfl
@[simp] theorem mul_eps (a b : Dual F) : (a * b).eps = a.re * b.eps + a.eps * b.re := rfl

end Dual

end Parts

/-! ## Laws -/

section Laws

variable {F : Type} [Arithmetic F] [ExactRing F]

instance : ExactRing (Complex F) where
  add_assoc _ _ _ := by ext <;> simp only [Complex.add_re, Complex.add_im] <;> ring
  add_comm _ _ := by ext <;> simp only [Complex.add_re, Complex.add_im] <;> ring
  zero_add _ := by
    ext <;> simp only [Complex.add_re, Complex.add_im, Complex.zero_re, Complex.zero_im] <;> ring
  neg_add_cancel _ := by
    ext <;> simp only [Complex.add_re, Complex.add_im, Complex.neg_re, Complex.neg_im,
      Complex.zero_re, Complex.zero_im] <;> ring
  sub_eq_add_neg _ _ := by
    ext <;> simp only [Complex.add_re, Complex.add_im, Complex.neg_re, Complex.neg_im,
      Complex.sub_re, Complex.sub_im] <;> ring
  mul_assoc _ _ _ := by ext <;> simp only [Complex.mul_re, Complex.mul_im] <;> ring
  mul_comm _ _ := by ext <;> simp only [Complex.mul_re, Complex.mul_im] <;> ring
  one_mul _ := by
    ext <;> simp only [Complex.mul_re, Complex.mul_im, Complex.one_re, Complex.one_im] <;> ring
  add_mul _ _ _ := by
    ext <;> simp only [Complex.mul_re, Complex.mul_im, Complex.add_re, Complex.add_im] <;> ring
  isZero_iff a := by
    show (isZero a.re && isZero a.im) = true ↔ a = 0
    rw [Bool.and_eq_true, ExactRing.isZero_iff, ExactRing.isZero_iff, Complex.ext_iff]
    rfl

instance : ExactRing (Dual F) where
  add_assoc _ _ _ := by ext <;> simp only [Dual.add_re, Dual.add_eps] <;> ring
  add_comm _ _ := by ext <;> simp only [Dual.add_re, Dual.add_eps] <;> ring
  zero_add _ := by
    ext <;> simp only [Dual.add_re, Dual.add_eps, Dual.zero_re, Dual.zero_eps] <;> ring
  neg_add_cancel _ := by
    ext <;> simp only [Dual.add_re, Dual.add_eps, Dual.neg_re, Dual.neg_eps,
      Dual.zero_re, Dual.zero_eps] <;> ring
  sub_eq_add_neg _ _ := by
    ext <;> simp only [Dual.add_re, Dual.add_eps, Dual.neg_re, Dual.neg_eps,
      Dual.sub_re, Dual.sub_eps] <;> ring
  mul_assoc _ _ _ := by ext <;> simp only [Dual.mul_re, Dual.mul_eps] <;> ring
  mul_comm _ _ := by ext <;> simp only [Dual.mul_re, Dual.mul_eps] <;> ring
  one_mul _ := by
    ext <;> simp only [Dual.mul_re, Dual.mul_eps, Dual.one_re, Dual.one_eps] <;> ring
  add_mul _ _ _ := by
    ext <;> simp only [Dual.mul_re, Dual.mul_eps, Dual.add_re, Dual.add_eps] <;> ring
  isZero_iff a := by
    show (isZero a.re && isZero a.eps) = true ↔ a = 0
    rw [Bool.and_eq_true, ExactRing.isZero_iff, ExactRing.isZero_iff, Dual.ext_iff]
    rfl

end Laws

section Real

variable {F : Type} [Scalar F ℝ] [RealAlgebra F]

instance [RealScalar F] : RealAlgebra (Complex F) where
  ofReal_one := Complex.ext RealAlgebra.ofReal_one rfl
  ofReal_add x y := by
    have hre := RealAlgebra.ofReal_add (T := F) x y
    exact Complex.ext hre (add_zero (0 : F)).symm
  ofReal_mul x y := by
    have hre := RealAlgebra.ofReal_mul (T := F) x y
    refine Complex.ext (hre.trans ?_) ?_
    · show _ = (Scalar.ofReal x : F) * Scalar.ofReal y - 0 * 0
      ring
    · show (0 : F) = Scalar.ofReal x * 0 + 0 * Scalar.ofReal y
      ring
  div_eq a b c h := by
    have hre : b.re * c.re - b.im * c.im = 1 := congrArg Complex.re h
    have him : b.re * c.im + b.im * c.re = 0 := congrArg Complex.im h
    -- the norm is multiplicative, so the divisor of both parts is invertible
    have hnorm : (b.re * b.re + b.im * b.im) * (c.re * c.re + c.im * c.im) = 1 := by
      linear_combination (b.re * c.re - b.im * c.im + 1) * hre
        + (b.re * c.im + b.im * c.re) * him
    ext
    · show (a.re * b.re + a.im * b.im) / (b.re * b.re + b.im * b.im)
        = a.re * c.re - a.im * c.im
      rw [RealAlgebra.div_eq _ _ _ hnorm]
      linear_combination (a.re * c.re - a.im * c.im) * hre + (a.re * c.im + a.im * c.re) * him
    · show (a.im * b.re - a.re * b.im) / (b.re * b.re + b.im * b.im)
        = a.re * c.im + a.im * c.re
      rw [RealAlgebra.div_eq _ _ _ hnorm]
      linear_combination (a.im * c.re + a.re * c.im) * hre + (a.im * c.im - a.re * c.re) * him

instance : RealAlgebra (Dual F) where
  ofReal_one := Dual.ext RealAlgebra.ofReal_one rfl
  ofReal_add x y := by
    have hre := RealAlgebra.ofReal_add (T := F) x y
    exact Dual.ext hre (add_zero (0 : F)).symm
  ofReal_mul x y := by
    have hre := RealAlgebra.ofReal_mul (T := F) x y
    refine Dual.ext hre ?_
    show (0 : F) = Scalar.ofReal x * 0 + 0 * Scalar.ofReal y
    ring
  div_eq a b c h := by
    have hre : b.re * c.re = 1 := congrArg Dual.re h
    have heps : b.re * c.eps + b.eps * c.re = 0 := congrArg Dual.eps h
    have hquot : a.re / b.re = a.re * c.re := RealAlgebra.div_eq _ _ _ hre
    ext
    · exact hquot
    · show (a.eps - a.re / b.re * b.eps) / b.re = a.re * c.eps + a.eps * c.re
      rw [RealAlgebra.div_eq _ _ _ hre, hquot]
      linear_combination a.re * c.eps * hre - a.re * c.re * heps

end Real

end TensorChebyshev
