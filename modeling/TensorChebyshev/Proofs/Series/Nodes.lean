import Mathlib
import TensorChebyshev.Proofs.Cosine.RoundTrip
import TensorChebyshev.Proofs.Series.Fit

/-!
# Fitting finds a series again

At the nodes a series of the fitted degree takes the values that the matrix of
the polynomials gives, and the passage from values to coefficients undoes that
matrix. So whatever the samples of a function are the values of, the fit
returns it.
-/

namespace TensorChebyshev

/-! ## The nodes -/

theorem abs_lobattoNode_le_one {n : Nat} {x : ℝ} (h : x ∈ (RealLine.lobattoNodes n : Vector ℝ _)) :
    |x| ≤ 1 := by
  obtain ⟨j, hj, rfl⟩ := Vector.getElem_of_mem h
  rcases Nat.eq_zero_or_pos n with rfl | hn
  · obtain rfl : j = 0 := Nat.lt_one_iff.mp hj
    exact abs_one.le
  · rw [getElem_lobattoNodes hn hj]
    exact Real.abs_cos_le_one _

/-! ## The fit -/

section Fit

variable {T : Type} [Scalar T ℝ] [RealAlgebra T] [CosineTransform T]

attribute [local instance] ExactRing.toCommRing

open RealAlgebra (embed)

/-- Values of a series at the nodes have its coefficients. -/
theorem coefficientsOfValues_series (h : CosineTransform.Exact T) {m : Nat}
    (c v : Vector T (m + 2))
    (hv : ∀ k : Fin (m + 2), v.get k = ∑ j : Fin (m + 2), valueEntry T (m + 1) k j * c.get j) :
    coefficientsOfValues v = c := by
  have hvalues : v = valuesOfCoefficients c := by
    refine Vector.ext fun k hk => ?_
    exact (hv ⟨k, hk⟩).trans (valuesOfCoefficients_isMatrix h m c ⟨k, hk⟩).symm
  rw [hvalues, coefficientsOfValues_valuesOfCoefficients h]

/-- **A function whose samples are those of a series of the fitted degree is fitted by that
series.** -/
theorem fit_series (h : CosineTransform.Exact T) {f : T → T} {a b : T} {n : Nat} (c : Nat → T)
    (hwidth : intervalWidth a b = .ok (b - a)) (hn : n ≤ maxDegree)
    (hf : ∀ x : ℝ, f (Scalar.half * (a + b) + Scalar.half * (b - a) * Scalar.ofReal x)
      = ∑ k ∈ Finset.range (n + 1), c k * chebyshev (embed T x) k) :
    fit f a b n = .ok ((List.range (n + 1)).map c) := by
  rw [fit_eq f n hwidth, if_neg (Nat.not_lt.mpr hn)]
  refine congrArg Except.ok ?_
  cases n with
  | zero =>
      have hmiddle := hf 0
      rw [← RealAlgebra.embed_apply, map_zero, mul_zero, add_zero, Finset.sum_range_one] at hmiddle
      rw [if_pos rfl, hmiddle, show chebyshev (0 : T) 0 = 1 from rfl, mul_one]
      rfl
  | succ m =>
      let v : Vector T (m + 2) := Vector.ofFn fun k => c k
      have hvalues : coefficientsOfValues ((samplePoints a b (m + 1)).map f) = v := by
        refine coefficientsOfValues_series h v _ fun k => ?_
        rw [Vector.get_map, samplePoints, Vector.get_map, hf, Vector.get_eq_getElem,
          getElem_lobattoNodes (Nat.succ_pos m), Finset.sum_range]
        refine Finset.sum_congr rfl fun j _ => ?_
        rw [Vector.get_ofFn, mul_comm]
        rfl
      rw [if_neg (Nat.succ_ne_zero m), hvalues, Vector.toList_ofFn, List.ofFn_eq_map,
        ← List.map_coe_finRange_eq_range, List.map_map]
      rfl

end Fit

end TensorChebyshev
