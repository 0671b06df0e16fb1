import TensorChebyshev.Proofs.Scalar.Parts

/-!
# Changes of scalars

A map from one scalar type to another that keeps the ring operations and the
real constants: a dual number to its value, a real number to the complex number
that it is. Nothing is asked of the zero test. What is not zero may be sent to
zero, so the two types may take different shortcuts. Nothing is asked of
quotients in general either, since a map can keep only those it can take.
-/

namespace TensorChebyshev

/-- A map of scalars over one real line that keeps their arithmetic. -/
structure ScalarMap {T T' R : Type} [Scalar T R] [Scalar T' R] (φ : T → T') : Prop where
  map_zero : φ 0 = 0
  map_one : φ 1 = 1
  map_add : ∀ x y, φ (x + y) = φ x + φ y
  map_sub : ∀ x y, φ (x - y) = φ x - φ y
  map_neg : ∀ x, φ (-x) = -φ x
  map_mul : ∀ x y, φ (x * y) = φ x * φ y
  map_ofReal : ∀ r : R, φ (Scalar.ofReal r) = Scalar.ofReal r

/-- The map keeps a quotient. -/
def KeepsQuotient {T T' : Type} [Arithmetic T] [Arithmetic T'] (φ : T → T') (x y : T) : Prop :=
  φ (x / y) = φ x / φ y

namespace ScalarMap

section Constants

variable {T T' R : Type} [RealLine R] [Scalar T R] [Scalar T' R] {φ : T → T'}

theorem map_two (h : ScalarMap φ) : φ Scalar.two = Scalar.two := h.map_ofReal _

theorem map_half (h : ScalarMap φ) : φ Scalar.half = Scalar.half := h.map_ofReal _

theorem map_ofNat (h : ScalarMap φ) (n : Nat) : φ (Scalar.ofNat n) = Scalar.ofNat n :=
  h.map_ofReal _

end Constants

/-- The value of a dual number. -/
theorem re {F R : Type} [RealLine R] [Scalar F R] : ScalarMap (Dual.re : Dual F → F) where
  map_zero := rfl
  map_one := rfl
  map_add _ _ := rfl
  map_sub _ _ := rfl
  map_neg _ := rfl
  map_mul _ _ := rfl
  map_ofReal _ := rfl

attribute [local instance] ExactRing.toCommRing in
/-- The complex number that a real number is. -/
theorem complex {F R : Type} [Scalar F R] [RealScalar F] [ExactRing F] :
    ScalarMap (fun x : F => (⟨x, 0⟩ : Complex F)) where
  map_zero := rfl
  map_one := rfl
  map_add x y := Complex.ext rfl (add_zero (0 : F)).symm
  map_sub x y := Complex.ext rfl (sub_zero (0 : F)).symm
  map_neg x := Complex.ext rfl (neg_zero (G := F)).symm
  map_mul x y := by
    ext
    · show x * y = x * y - 0 * 0
      rw [mul_zero, sub_zero]
    · show 0 = x * 0 + 0 * y
      rw [mul_zero, zero_mul, add_zero]
  map_ofReal _ := rfl

/-- The value of a quotient is the quotient of the values, whatever is divided. -/
theorem keepsQuotient_re {F : Type} [Arithmetic F] (x y : Dual F) : KeepsQuotient Dual.re x y :=
  rfl

end ScalarMap

end TensorChebyshev
