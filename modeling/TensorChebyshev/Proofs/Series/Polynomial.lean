import Mathlib
import TensorChebyshev.Proofs.Series.Chebyshev

/-!
# Polynomials as Chebyshev series

Over a commutative ring that has a half, the Chebyshev polynomials up to a
degree span the polynomials of that degree, since each has a power of two in
front to cancel with. On another interval than `[-1, 1]` the same holds after
the variable is mapped, and the width of the interval need not be more than
invertible.
-/

namespace TensorChebyshev

open Polynomial

variable {A : Type} [CommRing A] {half : A}

/-- The polynomial without its leading term, which is cancelled by a Chebyshev polynomial. -/
theorem natDegree_sub_chebyshev_le (hhalf : half + half = 1) (n : Nat) (P : A[X])
    (h : P.natDegree ≤ n + 1) :
    (P - C (P.coeff (n + 1) * half ^ n) * Chebyshev.T A (n + 1 : Nat)).natDegree ≤ n := by
  have hint : (Chebyshev.T ℤ (n + 1 : Nat)).natDegree = n + 1 := by
    rw [Chebyshev.natDegree_T, Int.natAbs_natCast]
  have hdegree : (Chebyshev.T A (n + 1 : Nat)).natDegree ≤ n + 1 := by
    rw [← Chebyshev.map_T (Int.castRingHom A)]
    exact natDegree_map_le.trans hint.le
  have hleading : (Chebyshev.T A (n + 1 : Nat)).coeff (n + 1) = 2 ^ n := by
    have hlead := Chebyshev.leadingCoeff_T ℤ (n + 1 : Nat)
    rw [leadingCoeff, hint, Int.natAbs_natCast, Nat.add_sub_cancel] at hlead
    rw [← Chebyshev.map_T (Int.castRingHom A), coeff_map, hlead]
    simp
  have hbound : (P - C (P.coeff (n + 1) * half ^ n) * Chebyshev.T A (n + 1 : Nat)).natDegree
      ≤ n + 1 := by
    refine (natDegree_sub_le _ _).trans (max_le h ?_)
    exact (natDegree_C_mul_le _ _).trans hdegree
  have hpow : half ^ n * 2 ^ n = 1 := by
    rw [← mul_pow, mul_two, hhalf, one_pow]
  have htop :
      (P - C (P.coeff (n + 1) * half ^ n) * Chebyshev.T A (n + 1 : Nat)).coeff (n + 1) = 0 := by
    rw [coeff_sub, coeff_C_mul, hleading, mul_assoc, hpow, mul_one, sub_self]
  exact natDegree_le_pred hbound htop

/-- Every polynomial is the sum of a Chebyshev series of its degree. -/
theorem exists_chebyshev_series (hhalf : half + half = 1) (n : Nat) (P : A[X])
    (h : P.natDegree ≤ n) :
    ∃ c : Nat → A, (∀ k, n < k → c k = 0) ∧
      ∀ s, P.eval s = ∑ k ∈ Finset.range (n + 1), c k * chebyshev s k := by
  induction n generalizing P with
  | zero =>
      refine ⟨Pi.single 0 (P.coeff 0), fun k hk => Pi.single_eq_of_ne hk.ne' _, fun s => ?_⟩
      rw [eq_C_of_natDegree_le_zero h, eval_C, Finset.sum_range_one, Pi.single_eq_same]
      simp [chebyshev]
  | succ n ih =>
      obtain ⟨c, hzero, hc⟩ := ih _ (natDegree_sub_chebyshev_le hhalf n P h)
      let top := P.coeff (n + 1) * half ^ n
      refine ⟨Function.update c (n + 1) top, fun k hk => ?_, fun s => ?_⟩
      · rw [Function.update_of_ne hk.ne', hzero k (Nat.lt_of_succ_lt hk)]
      · have hlower : ∀ k ∈ Finset.range (n + 1),
            Function.update c (n + 1) top k * chebyshev s k = c k * chebyshev s k := by
          intro k hk
          rw [Function.update_of_ne (Finset.mem_range.mp hk).ne]
        have heval := hc s
        rw [eval_sub, eval_mul, eval_C, ← chebyshev_eq_eval] at heval
        rw [Finset.sum_range_succ, Finset.sum_congr rfl hlower, Function.update_self, ← heval]
        ring

/-- The same with a longer series, as the degree of an expansion may allow. -/
theorem exists_longer_series (hhalf : half + half = 1) {n m : Nat} (hnm : n ≤ m) (P : A[X])
    (h : P.natDegree ≤ n) :
    ∃ c : Nat → A, (∀ k, n < k → c k = 0) ∧
      ∀ s, P.eval s = ∑ k ∈ Finset.range (m + 1), c k * chebyshev s k := by
  obtain ⟨c, hzero, hc⟩ := exists_chebyshev_series hhalf n P h
  refine ⟨c, hzero, fun s => ?_⟩
  rw [hc]
  refine Finset.sum_subset (Finset.range_subset_range.mpr (by omega)) fun k _ hk => ?_
  rw [hzero k (by rw [Finset.mem_range] at hk; omega), zero_mul]

/-- The series of a polynomial on an interval, read in the variable of the series and, through
the map onto `[-1, 1]`, in that of the polynomial. -/
theorem exists_mapped_series (hhalf : half + half = 1) (P : A[X]) {n : Nat}
    (hn : P.natDegree ≤ n) {a b w : A} (hw : (b - a) * w = 1) :
    ∃ c : Nat → A, (∀ k, P.natDegree < k → c k = 0) ∧
      (∀ s, P.eval (half * (a + b) + half * (b - a) * s)
        = ∑ k ∈ Finset.range (n + 1), c k * chebyshev s k) ∧
      ∀ t, P.eval t
        = ∑ k ∈ Finset.range (n + 1), c k * chebyshev ((2 * t - (a + b)) * w) k := by
  let line : A[X] := C (half * (b - a)) * X + C (half * (a + b))
  have heval : ∀ s, (P.comp line).eval s = P.eval (half * (a + b) + half * (b - a) * s) := by
    intro s
    rw [eval_comp]
    congr 1
    simp only [line, eval_add, eval_mul, eval_C, eval_X]
    ring
  have hdegree : (P.comp line).natDegree ≤ P.natDegree := by
    refine natDegree_comp_le.trans ?_
    exact (Nat.mul_le_mul_left _ natDegree_linear_le).trans (Nat.mul_one _).le
  obtain ⟨c, hzero, hc⟩ := exists_longer_series hhalf hn (P.comp line) hdegree
  refine ⟨c, hzero, fun s => (heval s).symm.trans (hc s), fun t => ?_⟩
  have ht : half * (a + b) + half * (b - a) * ((2 * t - (a + b)) * w) = t := by
    linear_combination half * (2 * t - (a + b)) * hw + t * hhalf
  rw [← hc, heval, ht]

end TensorChebyshev
