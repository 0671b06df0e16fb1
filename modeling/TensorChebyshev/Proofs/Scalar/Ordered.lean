import Mathlib
import TensorChebyshev.Proofs.Scalar.Parts

/-!
# Ordered scalars

A line whose comparison is the order of an exact ordered ring, and scalars that
form an ordered field inside it with the magnitude as absolute value. Dual
numbers over such scalars have zero divisors, so for them not being zero and
being invertible differ.
-/

namespace TensorChebyshev

attribute [local instance] ExactRing.toCommRing

/-! ## The line -/

/-- The comparison of the line is a total order that goes with sums and products, and nothing
is infinite. -/
class OrderedLine (R : Type) [RealLine R] : Prop extends ExactRing R where
  le_refl : ∀ a : R, RealLine.le a a = true
  le_trans : ∀ a b c : R, RealLine.le a b = true → RealLine.le b c = true → RealLine.le a c = true
  le_antisymm : ∀ a b : R, RealLine.le a b = true → RealLine.le b a = true → a = b
  le_total : ∀ a b : R, RealLine.le a b = true ∨ RealLine.le b a = true
  add_le_add_left : ∀ a b c : R, RealLine.le a b = true → RealLine.le (c + a) (c + b) = true
  mul_nonneg : ∀ a b : R, RealLine.le 0 a = true → RealLine.le 0 b = true →
    RealLine.le 0 (a * b) = true
  zero_ne_one : (0 : R) ≠ 1
  isFinite_eq : ∀ a : R, RealLine.isFinite a = true

namespace OrderedLine

variable (R : Type) [RealLine R] [OrderedLine R]

/-- The comparison of the line as an order. -/
@[reducible]
def toLinearOrder : LinearOrder R where
  le a b := RealLine.le a b = true
  le_refl := le_refl
  le_trans := le_trans
  le_antisymm := le_antisymm
  le_total := le_total
  toDecidableLE := fun a b => inferInstanceAs (Decidable (RealLine.le a b = true))

attribute [local instance] toLinearOrder

theorem isOrderedAddMonoid : IsOrderedAddMonoid R where
  add_le_add_left a b h c := by
    rw [add_comm a, add_comm b]
    exact add_le_add_left a b c h

/-- Otherwise minus one would be positive, and so would be its square. -/
theorem zeroLEOneClass : ZeroLEOneClass R where
  zero_le_one := by
    rcases le_total (0 : R) 1 with h | h
    · exact h
    · have hneg : RealLine.le (0 : R) (-1) = true := by
        have hadd := add_le_add_left 1 0 (-1 : R) h
        rwa [neg_add_cancel, add_zero] at hadd
      have hsquare := mul_nonneg (-1 : R) (-1) hneg hneg
      rwa [neg_mul_neg, one_mul] at hsquare

theorem isOrderedRing : IsOrderedRing R := by
  have := isOrderedAddMonoid R
  have := zeroLEOneClass R
  exact .of_mul_nonneg fun a b ha hb => mul_nonneg a b ha hb

end OrderedLine

attribute [local instance] OrderedLine.toLinearOrder OrderedLine.isOrderedRing

theorem le_line {R : Type} [RealLine R] [OrderedLine R] {a b : R} :
    RealLine.le a b = true ↔ a ≤ b := Iff.rfl

theorem isNaN_line {R : Type} [RealLine R] [OrderedLine R] (a : R) : RealLine.isNaN a = false := by
  rw [RealLine.isNaN, OrderedLine.le_refl, Bool.not_true]

instance : OrderedLine ℝ where
  le_refl a := decide_eq_true (le_refl a)
  le_trans a b c hab hbc := decide_eq_true
    ((of_decide_eq_true hab).trans (of_decide_eq_true hbc))
  le_antisymm a b hab hba := (of_decide_eq_true hab).antisymm (of_decide_eq_true hba)
  le_total a b := (le_total a b).imp (decide_eq_true ·) (decide_eq_true ·)
  add_le_add_left a b c h := decide_eq_true (by
    have hab : a ≤ b := of_decide_eq_true h
    show c + a ≤ c + b
    linarith)
  mul_nonneg a b ha hb := decide_eq_true (mul_nonneg (of_decide_eq_true ha) (of_decide_eq_true hb))
  zero_ne_one := zero_ne_one
  isFinite_eq _ := rfl

/-! ## Scalars -/

/-- Exact scalars of an ordered field, placed on the line. -/
structure OrderedScalars {F R : Type} [RealLine R] [Scalar F R] (ι : F → R) : Prop where
  half_add_half : (Scalar.half : F) + Scalar.half = 1
  exists_inverse : ∀ x : F, x ≠ 0 → ∃ y, x * y = 1
  div_eq : ∀ x y z : F, y * z = 1 → x / y = x * z
  map_zero : ι 0 = 0
  map_one : ι 1 = 1
  map_add : ∀ x y, ι (x + y) = ι x + ι y
  map_mul : ∀ x y, ι (x * y) = ι x * ι y
  eq_zero : ∀ x, ι x = 0 → x = 0
  magnitude_of_nonneg : ∀ x, RealLine.le 0 (ι x) = true → Scalar.magnitude x = ι x
  magnitude_of_nonpos : ∀ x, RealLine.le (ι x) 0 = true → Scalar.magnitude x = -ι x

theorem orderedScalars_real : OrderedScalars (id : ℝ → ℝ) where
  half_add_half := RealAlgebra.half_add_half
  exists_inverse x h := ⟨x⁻¹, mul_inv_cancel₀ h⟩
  div_eq := RealAlgebra.div_eq
  map_zero := rfl
  map_one := rfl
  map_add _ _ := rfl
  map_mul _ _ := rfl
  eq_zero _ h := h
  magnitude_of_nonneg _ h := abs_of_nonneg (of_decide_eq_true h)
  magnitude_of_nonpos _ h := abs_of_nonpos (of_decide_eq_true h)

namespace OrderedScalars

variable {F R : Type} [RealLine R] [Scalar F R] {ι : F → R}

section Order

variable [OrderedLine R]

theorem magnitude_eq (h : OrderedScalars ι) (x : F) : Scalar.magnitude x = |ι x| := by
  rcases le_total 0 (ι x) with hle | hle
  · rw [abs_of_nonneg hle]
    exact h.magnitude_of_nonneg x hle
  · rw [abs_of_nonpos hle]
    exact h.magnitude_of_nonpos x hle

theorem le_magnitude (h : OrderedScalars ι) (x : F) : ι x ≤ Scalar.magnitude x := by
  rw [h.magnitude_eq]
  exact le_abs_self _

/-- Twice one half is one, which is not negative. -/
theorem half_nonneg (h : OrderedScalars ι) : 0 ≤ ι Scalar.half := by
  have hsum : ι Scalar.half + ι Scalar.half = 1 := by
    rw [← h.map_add, h.half_add_half, h.map_one]
  by_contra hneg
  have hle : ι Scalar.half ≤ 0 := (not_le.mp hneg).le
  have hone : (1 : R) ≤ 0 := hsum ▸ add_nonpos hle hle
  exact OrderedLine.zero_ne_one (le_antisymm zero_le_one hone)

theorem magnitude_re_le (h : OrderedScalars ι) (x : Dual F) :
    (Scalar.magnitude x.re : R) ≤ Scalar.magnitude x := by
  show Scalar.magnitude x.re ≤ Scalar.magnitude x.re + Scalar.magnitude x.eps
  rw [h.magnitude_eq x.eps]
  exact le_add_of_nonneg_right (abs_nonneg _)

theorem magnitude_nonneg_dual (h : OrderedScalars ι) (x : Dual F) :
    (0 : R) ≤ Scalar.magnitude x := by
  refine le_trans ?_ (h.magnitude_re_le x)
  rw [h.magnitude_eq]
  exact abs_nonneg _

theorem magnitude_eq_zero_dual (h : OrderedScalars ι) (x : Dual F) :
    (Scalar.magnitude x : R) = 0 ↔ x = 0 := by
  have habs : (Scalar.magnitude x : R) = |ι x.re| + |ι x.eps| := by
    rw [← h.magnitude_eq, ← h.magnitude_eq]
    rfl
  rw [habs, add_eq_zero_iff_of_nonneg (abs_nonneg _) (abs_nonneg _), abs_eq_zero, abs_eq_zero,
    Dual.ext_iff]
  constructor
  · rintro ⟨hre, heps⟩
    exact ⟨h.eq_zero _ hre, h.eq_zero _ heps⟩
  · rintro ⟨hre, heps⟩
    rw [hre, heps]
    exact ⟨h.map_zero, h.map_zero⟩

end Order

variable [ExactRing F]

theorem map_finsetSum [OrderedLine R] (h : OrderedScalars ι) {κ : Type} (S : Finset κ) (f : κ → F) :
    ι (∑ i ∈ S, f i) = ∑ i ∈ S, ι (f i) :=
  map_sum (AddMonoidHom.mk' ι h.map_add) f S

/-- A dual number with a value that is not zero is invertible. -/
theorem mul_one_div_dual (h : OrderedScalars ι) {x : Dual F} (hx : x.re ≠ 0) :
    x * (1 / x) = 1 := by
  obtain ⟨z, hz⟩ := h.exists_inverse x.re hx
  have hre : (1 / x).re = z := (h.div_eq 1 x.re z hz).trans (one_mul z)
  have heps : (1 / x).eps = (0 - z * x.eps) * z := by
    show ((0 : F) - (1 / x).re * x.eps) / x.re = _
    rw [hre, h.div_eq _ _ z hz]
  ext
  · rw [Dual.mul_re, hre, hz]
    rfl
  · rw [Dual.mul_eps, hre, heps, Dual.one_eps]
    linear_combination -(z * x.eps) * hz

end OrderedScalars

end TensorChebyshev
