import Mathlib.RingTheory.Polynomial.Chebyshev
import TensorChebyshev.Index.Tuple

/-!
# Chebyshev polynomials

The recurrence that all modules mean by a Chebyshev polynomial. It is read at
a scalar and at an additive map alike: the sums of the library feed their
accumulators back through multiplication by the argument, which is a map.
-/

namespace TensorChebyshev

/-- The Chebyshev polynomial of degree `k` at `x`. -/
def chebyshev {A : Type} [One A] [Add A] [Sub A] [Mul A] (x : A) : (k : Nat) → A
  | 0 => 1
  | 1 => x
  | k + 2 => (x + x) * chebyshev x (k + 1) - chebyshev x k

/-- The product of the Chebyshev polynomials of a tuple, one for each coordinate. -/
def tensorChebyshev {A : Type} [One A] [Add A] [Sub A] [Mul A] : Tuple → List A → A
  | e :: t, x :: xs => chebyshev x e * tensorChebyshev t xs
  | _, _ => 1

section Ring

variable {A : Type} [Ring A] (x : A)

theorem chebyshev_succ_succ (k : Nat) :
    chebyshev x (k + 2) = x * chebyshev x (k + 1) + x * chebyshev x (k + 1) - chebyshev x k := by
  rw [chebyshev, add_mul]

theorem map_chebyshev {B : Type} [Ring B] (f : A →+* B) (k : Nat) :
    f (chebyshev x k) = chebyshev (f x) k := by
  induction k using chebyshev.induct with
  | case1 => exact map_one f
  | case2 => rfl
  | case3 k ih1 ih0 => simp only [chebyshev, map_sub, map_mul, map_add, ih1, ih0]

theorem chebyshev_mul_comm (k : Nat) : chebyshev x k * x = x * chebyshev x k := by
  induction k using chebyshev.induct with
  | case1 => simp [chebyshev]
  | case2 => simp [chebyshev]
  | case3 k ih1 ih0 =>
      rw [chebyshev, sub_mul, mul_sub, mul_assoc, ih1, ih0, add_mul, add_mul, mul_add]

end Ring

section CommRing

variable {A : Type} [CommRing A] (x : A)

theorem chebyshev_eq_eval (k : Nat) :
    chebyshev x k = (Polynomial.Chebyshev.T A k).eval x := by
  induction k using chebyshev.induct with
  | case1 => simp [chebyshev]
  | case2 => simp [chebyshev]
  | case3 k ih1 ih0 =>
      have hsucc : ((k + 1 : Nat) : ℤ) = k + 1 := by omega
      have hsucc2 : ((k + 2 : Nat) : ℤ) = k + 2 := by omega
      rw [chebyshev, ih1, ih0, hsucc, hsucc2, Polynomial.Chebyshev.T_add_two]
      simp only [Polynomial.eval_sub, Polynomial.eval_mul, Polynomial.eval_ofNat,
        Polynomial.eval_X]
      ring

/-- With a constant factor a product is one term. -/
theorem chebyshev_mul_of_zero {a b : Nat} (h : a = 0 ∨ b = 0) :
    chebyshev x a * chebyshev x b = chebyshev x (a + b) := by
  rcases h with rfl | rfl
  · rw [chebyshev, one_mul, Nat.zero_add]
  · rw [show chebyshev x 0 = 1 from rfl, mul_one, Nat.add_zero]

/-- **Product to sum**: twice a product is the polynomial of the summed degrees
and that of their distance. -/
theorem two_mul_chebyshev_mul (a b : Nat) :
    2 * (chebyshev x a * chebyshev x b)
      = chebyshev x (a + b) + chebyshev x ((a - b) + (b - a)) := by
  have habs : ((((a - b) + (b - a) : Nat)) : ℤ) = ((a : ℤ) - b).natAbs := by omega
  rw [chebyshev_eq_eval, chebyshev_eq_eval, chebyshev_eq_eval, chebyshev_eq_eval, habs,
    Polynomial.Chebyshev.T_natAbs]
  have h := congrArg (Polynomial.eval x) (Polynomial.Chebyshev.T_mul_T A a b)
  simp only [Polynomial.eval_add, Polynomial.eval_mul, Polynomial.eval_ofNat] at h
  push_cast
  rw [← h, mul_assoc]

end CommRing

end TensorChebyshev
