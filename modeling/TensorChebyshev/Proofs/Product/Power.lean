import Mathlib
import TensorChebyshev.Proofs.Product.Algebra

/-!
# Powers

A power is formed by repeated squaring, and truncated products depend on the
order of their factors. Where the degree has room for all factors they do not:
a product of two repeated products is the repeated product of all their
factors. The loop of the power holds two of these, the result so far and the
square that comes next, and `acc · base ^ n` has as many factors at its end as
at its beginning. It stops before the square behind the last digit, for which
the degree may have no room.
-/

namespace TensorChebyshev

/-! ## Repeated products -/

namespace Shape

variable {T R : Type} [RealLine R] [Scalar T R] [CosineTransform T] {s : Shape}

/-- The truncated product of `n` factors `a`, one after the other. -/
def repeated (a : s.Coefficients T) : (n : Nat) → s.Coefficients T
  | 0 => s.constant 1
  | n + 1 => multiply .direct (repeated a n) a

variable [ExactRing T] {a : s.Coefficients T}

attribute [local instance] ExactRing.toCommRing

theorem repeated_one (a : s.Coefficients T) : repeated a 1 = a := by
  rw [repeated, repeated, one_multiply]

theorem degree_repeated_le (a : s.Coefficients T) (n : Nat) :
    (terms (repeated a n)).degree ≤ n * (terms a).degree := by
  induction n with
  | zero =>
      rw [repeated, degree_constant]
      exact Nat.zero_le _
  | succ n ih =>
      have hproduct := degree_multiply_le (repeated a n) a
      rw [repeated, Nat.succ_mul]
      omega

/-- **The factors of two repeated products add up** where the degree has room for all
of them. -/
theorem multiply_repeated (hhalf : (Scalar.half : T) + Scalar.half = 1) {m n : Nat}
    (h : (m + n) * (terms a).degree ≤ s.degree) :
    multiply .direct (repeated a m) (repeated a n) = repeated a (m + n) := by
  induction n with
  | zero => rw [repeated, multiply_constant, scale_one, Nat.add_zero]
  | succ n ih =>
      have hm := degree_repeated_le a m
      have hn := degree_repeated_le a n
      rw [← Nat.add_assoc, Nat.succ_mul, Nat.add_mul] at h
      have hfits : (terms (repeated a m)).degree + (terms (repeated a n)).degree
          + (terms a).degree ≤ s.degree := by omega
      rw [repeated, ← multiply_assoc hhalf hfits, ih (by rw [Nat.add_mul]; omega), ← Nat.add_assoc,
        repeated]

theorem value_repeated (hhalf : (Scalar.half : T) + Scalar.half = 1) {p : List T}
    (hp : p.length = s.nvar) {n : Nat} (h : n * (terms a).degree ≤ s.degree) :
    value (repeated a n) p = value a p ^ n := by
  induction n with
  | zero => rw [repeated, value_constant, pow_zero]
  | succ n ih =>
      have hn := degree_repeated_le a n
      rw [Nat.succ_mul] at h
      rw [repeated, value_multiply_direct_of_degree hhalf _ _ (by omega) hp, ih (by omega),
        pow_succ]

/-! ## Repeated squaring -/

/-- One digit of the exponent. -/
theorem multiply_repeated_digit (hhalf : (Scalar.half : T) + Scalar.half = 1) {i k n : Nat}
    (h : (i + k * (n % 2)) * (terms a).degree ≤ s.degree) :
    (if n % 2 = 1 then multiply .standard (repeated a i) (repeated a k) else repeated a i)
      = repeated a (i + k * (n % 2)) := by
  rcases Nat.mod_two_eq_zero_or_one n with hdigit | hdigit
  · simp [hdigit]
  · rw [hdigit, Nat.mul_one] at h ⊢
    rw [if_pos rfl]
    exact multiply_repeated hhalf h

/-- **The loop of the power keeps the number of factors**: those of the result so far,
and those of the base for every unit of the exponent that is left. -/
theorem powerLoop_repeated (hhalf : (Scalar.half : T) + Scalar.half = 1) {i k n : Nat}
    (h : (i + k * n) * (terms a).degree ≤ s.degree) :
    powerLoop (repeated a i) (repeated a k) n = repeated a (i + k * n) := by
  induction n using Nat.strong_induction_on generalizing i k with
  | h n ih =>
      have hroom : ∀ j, j ≤ i + k * n → j * (terms a).degree ≤ s.degree := by
        intro j hj
        exact (Nat.mul_le_mul_right _ hj).trans h
      rw [powerLoop]
      by_cases hzero : n = 0
      · simp [hzero]
      have hdigit : i + k * (n % 2) ≤ i + k * n :=
        Nat.add_le_add_left (Nat.mul_le_mul_left k (Nat.mod_le n 2)) i
      simp only [if_neg hzero, multiply_repeated_digit hhalf (hroom _ hdigit)]
      by_cases hlast : n / 2 = 0
      · have hone : n = 1 := by omega
        rw [if_pos hlast, hone]
      -- the square is needed, so there is room for it
      have hsquare : multiply .standard (repeated a k) (repeated a k) = repeated a (k + k) := by
        have htwo : k * 2 ≤ k * n := Nat.mul_le_mul_left k (by omega)
        exact multiply_repeated hhalf (hroom _ (by omega))
      have hfactors : i + k * (n % 2) + (k + k) * (n / 2) = i + k * n := by
        calc i + k * (n % 2) + (k + k) * (n / 2)
            = i + k * (n % 2 + 2 * (n / 2)) := by ring
          _ = i + k * n := by rw [Nat.mod_add_div]
      rw [if_neg hlast, hsquare, ih (n / 2) (by omega) (by rw [hfactors]; exact h), hfactors]

theorem power_eq_repeated (hhalf : (Scalar.half : T) + Scalar.half = 1) {n : Nat}
    (h : n * (terms a).degree ≤ s.degree) : power a n = repeated a n := by
  have hloop := powerLoop_repeated (a := a) (i := 0) (k := 1) (n := n) hhalf
    (by rwa [Nat.zero_add, Nat.one_mul])
  rwa [repeated_one, Nat.zero_add, Nat.one_mul] at hloop

end Shape

/-! ## Powers of expansions -/

namespace Expansion

variable {T R : Type} [RealLine R] [Scalar T R] [CosineTransform T]

/-- The product of `n` factors `e`, each multiplied to those before it. -/
def repeatedProduct (e : Expansion T) : (n : Nat) → Result R (Expansion T)
  | 0 => .ok (e.constantLike 1)
  | n + 1 => do (← repeatedProduct e n).multiply .standard e

theorem repeatedProduct_eq (e : Expansion T) (n : Nat) :
    e.repeatedProduct n = (.ok ⟨e.shape, Shape.repeated e.coeffs n⟩ : Result R (Expansion T)) := by
  induction n with
  | zero => rfl
  | succ n ih =>
      rw [repeatedProduct, ih]
      exact multiply_mk .standard e.shape (Shape.repeated e.coeffs n) e.coeffs

variable [ExactRing T]

attribute [local instance] ExactRing.toCommRing

/-- **Powers are exact while they fit.** As long as the degree has room for `n` factors, the
power takes the `n`-th power of the value at every point and is the product of `n` factors
that is truncated at every step. Exponents add up as far as there is room for their sum. -/
theorem power_exact_in_degree (hhalf : (Scalar.half : T) + Scalar.half = 1) (e : Expansion T) :
    (∀ n : Nat, n * e.actualDegree ≤ e.degree →
      (∀ point : Array T,
        ((e.power n).evaluate point : Result R T) = (e.evaluate point).map (· ^ n)) ∧
      e.repeatedProduct n = .ok (e.power n)) ∧
    ∀ m n : Nat, (m + n) * e.actualDegree ≤ e.degree →
      multiply .standard (e.power m) (e.power n) = .ok (e.power (m + n)) := by
  have hpower : ∀ n, n * e.actualDegree ≤ e.degree →
      e.power n = ⟨e.shape, Shape.repeated e.coeffs n⟩ := by
    intro n hn
    rw [power, map, Shape.power_eq_repeated hhalf hn]
  refine ⟨fun n hn => ⟨evaluate_eq_map rfl fun p hp => ?_, ?_⟩, fun m n hmn => ?_⟩
  · rw [hpower n hn]
    exact Shape.value_repeated hhalf hp hn
  · rw [hpower n hn, repeatedProduct_eq]
  · have hm : m * e.actualDegree ≤ e.degree :=
      (Nat.mul_le_mul_right _ (Nat.le_add_right m n)).trans hmn
    have hn : n * e.actualDegree ≤ e.degree :=
      (Nat.mul_le_mul_right _ (Nat.le_add_left n m)).trans hmn
    rw [hpower m hm, hpower n hn, hpower _ hmn, multiply_mk, ← Shape.multiply_repeated hhalf hmn]
    rfl

attribute [local instance] CosineTransform.bySums in
/-- The square of a ramp, which just fits. -/
theorem power_exact_in_degree_ramp :
    ((ramp ℝ).power 2).evaluate #[3] = (.ok 25 : Result ℝ ℝ) ∧
    (ramp ℝ).repeatedProduct 2 = (.ok ((ramp ℝ).power 2) : Result ℝ (Expansion ℝ)) ∧
    multiply .standard ((ramp ℝ).power 1) ((ramp ℝ).power 1)
      = (.ok ((ramp ℝ).power 2) : Result ℝ (Expansion ℝ)) := by
  have hroom : 2 * (ramp ℝ).actualDegree ≤ (ramp ℝ).degree :=
    Nat.mul_le_mul_left 2 (actualDegree_ramp_le ℝ)
  obtain ⟨hsingle, hsum⟩ := power_exact_in_degree RealAlgebra.half_add_half (ramp ℝ)
  obtain ⟨hvalue, hrepeated⟩ := hsingle 2 hroom
  refine ⟨?_, hrepeated, hsum 1 1 hroom⟩
  have hramp : (ramp ℝ).evaluate #[3] = (.ok 5 : Result ℝ ℝ) := by
    rw [evaluate_of_size _ _ rfl, value_ramp]
    norm_num
  rw [hvalue, hramp]
  show Except.ok ((5 : ℝ) ^ 2) = Except.ok 25
  norm_num

end Expansion

end TensorChebyshev
