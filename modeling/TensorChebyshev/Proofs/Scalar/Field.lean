import Mathlib
import TensorChebyshev.Proofs.Scalar.Real

/-!
# Exact fields

Exact scalars in which everything but zero can be divided by, and whose test for
equality is equality. Nothing is asked of the division itself.
-/

namespace TensorChebyshev

/-- Arithmetic of a field, with a test for equality that means what it says. -/
class ExactField (T : Type) [Arithmetic T] : Prop extends ExactRing T where
  beq_iff : ∀ a b : T, (a == b) = true ↔ a = b
  zero_ne_one : (0 : T) ≠ 1
  exists_inverse : ∀ a : T, a ≠ 0 → ∃ b, a * b = 1

namespace ExactField

variable (T : Type) [Arithmetic T] [ExactField T]

attribute [local instance] ExactRing.toCommRing

theorem lawfulBEq : LawfulBEq T where
  eq_of_beq h := (beq_iff _ _).mp h
  rfl := (beq_iff _ _).mpr rfl

/-- A product vanishes only with a factor. -/
theorem isDomain : IsDomain T := by
  have : Nontrivial T := ⟨0, 1, zero_ne_one⟩
  have : NoZeroDivisors T := by
    refine ⟨fun {a b} hab => ?_⟩
    by_cases ha : a = 0
    · exact .inl ha
    · obtain ⟨c, hc⟩ := exists_inverse a ha
      right
      calc b = a * c * b := by rw [hc, one_mul]
        _ = c * (a * b) := by ring
        _ = 0 := by rw [hab, mul_zero]
  exact NoZeroDivisors.to_isDomain T

end ExactField

instance : ExactField ℝ where
  beq_iff _ _ := decide_eq_true_iff
  zero_ne_one := zero_ne_one
  exists_inverse x h := ⟨x⁻¹, mul_inv_cancel₀ h⟩

end TensorChebyshev
