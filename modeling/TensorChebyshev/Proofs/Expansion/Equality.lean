import Mathlib
import TensorChebyshev.Proofs.Expansion.Evaluate
import TensorChebyshev.Proofs.Product.Algebra
import TensorChebyshev.Proofs.Scalar.Field
import TensorChebyshev.Proofs.Series.Independence

/-!
# Equality of expansions

The basis functions of a shape are independent, so over an infinite field two
expansions with the same values have the same coefficients. What the library
tests on coefficients is therefore what can be seen at points: equality, being
zero and being constant.
-/

namespace TensorChebyshev

attribute [local instance] ExactRing.toCommRing

namespace Shape

section Coefficients

variable {T : Type} [Arithmetic T] [ExactRing T] {s : Shape}

theorem allZero_iff {v : s.Coefficients T} : allZero v = true ↔ v = 0 := by
  rw [allZero, List.all_eq_true]
  constructor
  · intro h
    refine Vector.ext fun i hi => ?_
    rw [Vector.getElem_zero]
    exact (ExactRing.isZero_iff _).mp (h v[i] (by simp))
  · rintro rfl c hc
    obtain ⟨i, hi, rfl⟩ := List.getElem_of_mem hc
    rw [ExactRing.isZero_iff, Vector.getElem_toList, Vector.getElem_zero]

theorem isConstant_iff {v : s.Coefficients T} :
    isConstant v = true ↔ ∃ c, v = s.constant c := by
  constructor
  · intro h
    exact ⟨_, eq_constant_of_isConstant h⟩
  · rintro ⟨c, rfl⟩
    exact isConstant_constant c

end Coefficients

variable {T : Type} [Arithmetic T] [ExactField T] [Infinite T] {s : Shape}

/-- Coefficients are zero when the values are, because the basis functions are
independent. -/
theorem eq_zero_of_value (htwo : (1 + 1 : T) ≠ 0) {v : s.Coefficients T}
    (h : ∀ x : List T, x.length = s.nvar → value v x = 0) : v = 0 := by
  have := ExactField.isDomain T
  have hlen : ∀ t ∈ (graded s.nvar s.degree).toFinset, t.length = s.nvar := by
    intro t ht
    exact (mem_graded.mp (List.mem_toFinset.mp ht)).1
  have hsum : ∀ x : List T, x.length = s.nvar →
      ∑ t ∈ (graded s.nvar s.degree).toFinset,
        (terms v).coefficient t * tensorChebyshev t x = 0 := by
    intro x hx
    rw [List.sum_toFinset _ (nodup_graded _ _), ← h x hx, value_eq_eval]
    refine (Combination.eval_eq_sum_coefficient _ (nodup_graded _ _) fun c hc => ?_).symm
    exact GradedBasis.fst_mem_of_mem_labelled hc
  have hcoefficient := eq_zero_of_tensorChebyshev htwo hlen hsum
  refine Vector.ext fun i hi => ?_
  rw [← coefficient_terms v hi, Vector.getElem_zero]
  exact hcoefficient _ (List.mem_toFinset.mpr (mem_graded.mpr (GradedBasis.tupleAt_mem hi)))

/-- **Values determine the coefficients.** -/
theorem eq_of_value (htwo : (1 + 1 : T) ≠ 0) {v w : s.Coefficients T}
    (h : ∀ x : List T, x.length = s.nvar → value v x = value w x) : v = w := by
  refine sub_eq_zero.mp (eq_zero_of_value htwo fun x hx => ?_)
  rw [value_sub, h x hx, sub_self]

end Shape

namespace Expansion

theorem beq_iff_coeffs {T : Type} [Arithmetic T] [ExactField T] {s : Shape}
    {v w : s.Coefficients T} : ((⟨s, v⟩ : Expansion T) == ⟨s, w⟩) = true ↔ v = w := by
  have := ExactField.lawfulBEq T
  show (decide (s.Alike s) && v.toArray == w.toArray) = true ↔ _
  rw [decide_eq_true (show s.Alike s from ⟨rfl, rfl⟩), Bool.true_and, beq_iff_eq,
    Vector.toArray_inj]

theorem evaluate_constant {T R : Type} [Scalar T R] [ExactRing T] {s : Shape} (c : T)
    {p : Array T} (hp : p.size = s.nvar) :
    evaluate ⟨s, s.constant c⟩ p = (.ok c : Result R T) := by
  rw [evaluate_of_size ⟨s, s.constant c⟩ p hp, value, Shape.value_constant]

variable {T R : Type} [Scalar T R] [ExactField T] [Infinite T]

theorem coeffs_eq_iff_evaluate (htwo : (1 + 1 : T) ≠ 0) {s : Shape} {v w : s.Coefficients T} :
    v = w ↔ ∀ p : Array T, p.size = s.nvar →
      (evaluate ⟨s, v⟩ p : Result R T) = evaluate ⟨s, w⟩ p := by
  constructor
  · rintro rfl p _
    rfl
  · intro h
    refine Shape.eq_of_value htwo fun x hx => ?_
    have hp : x.toArray.size = s.nvar := by simpa using hx
    have hvalues := h x.toArray hp
    rw [evaluate_of_size _ _ hp, evaluate_of_size _ _ hp] at hvalues
    exact Except.ok.inj hvalues

theorem eq_constant_iff_evaluate (htwo : (1 + 1 : T) ≠ 0) {s : Shape} {v : s.Coefficients T}
    {c : T} : v = s.constant c ↔ ∀ p : Array T, p.size = s.nvar →
      (evaluate ⟨s, v⟩ p : Result R T) = .ok c := by
  rw [coeffs_eq_iff_evaluate (R := R) htwo]
  refine forall₂_congr fun p hp => ?_
  rw [evaluate_constant c hp]

/-- **Equality of expansions is equality of functions.** Two expansions of one
shape are equal exactly if they have the same value at every point; so an
expansion passes for zero exactly if all its values are zero, and for constant
exactly if they are all the same. -/
theorem beq_iff_evaluate_eq (htwo : (1 + 1 : T) ≠ 0) {a b : Expansion T}
    (hab : a.shape.Alike b.shape) :
    ((a == b) = true ↔
      ∀ p : Array T, p.size = a.nvar → (a.evaluate p : Result R T) = b.evaluate p) ∧
    (a.isZero = true ↔
      ∀ p : Array T, p.size = a.nvar → (a.evaluate p : Result R T) = .ok 0) ∧
    (a.isConstant = true ↔
      ∃ c, ∀ p : Array T, p.size = a.nvar → (a.evaluate p : Result R T) = .ok c) := by
  obtain ⟨s, v⟩ := a
  obtain ⟨t, w⟩ := b
  obtain rfl : s = t := hab.eq
  refine ⟨?_, ?_, ?_⟩
  · rw [beq_iff_coeffs]
    exact coeffs_eq_iff_evaluate htwo
  · rw [isZero, Shape.allZero_iff, ← Shape.constant_zero]
    exact eq_constant_iff_evaluate htwo
  · rw [isConstant, Shape.isConstant_iff]
    exact exists_congr fun c => eq_constant_iff_evaluate htwo

/-- The function `1 + x + y` equals itself, its values are not all zero, and no number is
the value of it everywhere. -/
theorem beq_iff_evaluate_eq_plane :
    (1 + 1 : ℝ) ≠ 0 ∧ (plane ℝ).shape.Alike (plane ℝ).shape ∧
      (plane ℝ == plane ℝ) = true ∧
      (¬ ∀ p : Array ℝ, p.size = 2 → (plane ℝ).evaluate p = (.ok 0 : Result ℝ ℝ)) ∧
      ¬ ∃ c, ∀ p : Array ℝ, p.size = 2 → (plane ℝ).evaluate p = (.ok c : Result ℝ ℝ) := by
  have htwo : (1 + 1 : ℝ) ≠ 0 := one_add_one_eq_two (R := ℝ) ▸ two_ne_zero
  have hone : TensorChebyshev.isZero (1 : ℝ) = false := by
    rw [Bool.eq_false_iff, ne_eq, ExactRing.isZero_iff]
    exact one_ne_zero
  have hzero : (plane ℝ).isZero = false := by
    rw [isZero, Shape.allZero, toList_plane, List.all_cons, hone, Bool.false_and]
  have hconstant : (plane ℝ).isConstant = false := by
    rw [isConstant, Shape.isConstant, toList_plane, List.tail_cons, List.all_cons, hone,
      Bool.false_and]
  obtain ⟨hequal, hzeros, hconstants⟩ :=
    beq_iff_evaluate_eq (R := ℝ) htwo (a := plane ℝ) (b := plane ℝ) ⟨rfl, rfl⟩
  refine ⟨htwo, ⟨rfl, rfl⟩, hequal.mpr fun _ _ => rfl, ?_, ?_⟩
  · intro h
    rw [hzeros.mpr h] at hzero
    cases hzero
  · intro h
    rw [hconstants.mpr h] at hconstant
    cases hconstant

end Expansion

end TensorChebyshev
