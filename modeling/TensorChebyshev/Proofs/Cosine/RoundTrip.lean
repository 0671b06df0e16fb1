import Mathlib
import TensorChebyshev.Proofs.Cosine.Interpolation
import TensorChebyshev.Proofs.Expansion.Evaluate
import TensorChebyshev.Proofs.Scalar.Parts

/-!
# Values and coefficients determine each other

The passage to the coefficients undoes the passage to the values, by discrete
orthogonality. Both are square matrices over a commutative ring, so the passage
to the values undoes the other one as well. What it gives are the sums of the
series at the nodes: the cosine transform does for all nodes what the backward
recurrence does at one point.
-/

namespace TensorChebyshev

section Sum

variable {T : Type} [Arithmetic T] [ExactRing T]

attribute [local instance] ExactRing.toCommRing

/-- The recurrence at a scalar sums the coefficients times the polynomials there. -/
theorem clenshaw_eq_sum (x : T) {n : Nat} (c : Vector T n) :
    clenshaw (· * x) c.toList = ∑ k : Fin n, c.get k * chebyshev x k := by
  have hlabels : (List.finRange n).map Fin.val = List.range' 0 (List.finRange n).length := by
    rw [List.length_finRange, List.map_coe_finRange_eq_range, List.range_eq_range']
  have hlist : c.toList = (List.finRange n).map c.get := by
    rw [← List.ofFn_eq_map]
    exact List.ext_getElem (by simp) fun k hk hk' => by simp [Vector.get_eq_getElem]
  have hseries := seriesFrom_eq_sum (timesBy x) Fin.val c.get (List.finRange n) 0 hlabels
  rw [← hlist, ← clenshaw_eq_seriesFrom, ← List.ofFn_eq_map, List.sum_ofFn] at hseries
  refine hseries.trans (Finset.sum_congr rfl fun k _ => ?_)
  exact chebyshev_timesBy x (c.get k) k

end Sum

/-! ## The nodes -/

theorem getElem_lobattoNodes {n j : Nat} (hn : 0 < n) (hj : j < n + 1) :
    (RealLine.lobattoNodes n : Vector ℝ (n + 1))[j] = node n j := by
  have hnodes : (RealLine.lobattoNodes n : Vector ℝ (n + 1))
      = Vector.ofFn fun j => RealLine.cosPi j n := if_neg hn.ne'
  rw [hnodes, Vector.getElem_ofFn]
  rfl

/-! ## Round trips -/

variable {T : Type} [Scalar T ℝ] [RealAlgebra T] [CosineTransform T]

attribute [local instance] ExactRing.toCommRing

theorem coefficientsOfValues_valuesOfCoefficients (h : CosineTransform.Exact T) {n : Nat}
    (c : Vector T n) : coefficientsOfValues (valuesOfCoefficients c) = c := by
  obtain ⟨hvalues, A, hcoefficients, hinverse⟩ := exists_interpolation h n
  exact hcoefficients.leftInverse hvalues hinverse c

theorem valuesOfCoefficients_coefficientsOfValues (h : CosineTransform.Exact T) {n : Nat}
    (v : Vector T n) : valuesOfCoefficients (coefficientsOfValues v) = v := by
  obtain ⟨hvalues, A, hcoefficients, hinverse⟩ := exists_interpolation h n
  exact hvalues.leftInverse hcoefficients hinverse.symm v

/-- The values are the sums of the series at the nodes. -/
theorem get_valuesOfCoefficients (h : CosineTransform.Exact T) {m : Nat} (c : Vector T (m + 2))
    (j : Fin (m + 2)) : (valuesOfCoefficients c).get j
      = ∑ k : Fin (m + 2), c.get k * chebyshev (Scalar.ofReal (node (m + 1) j)) k := by
  rw [valuesOfCoefficients_isMatrix h m c j]
  exact Finset.sum_congr rfl fun k _ => mul_comm _ _

/-- **Values and coefficients determine each other**, for every number of them: each passage
undoes the other, and from two values on the values are what the backward recurrence gives
at the nodes. -/
theorem interpolation_roundTrip (h : CosineTransform.Exact T) :
    (∀ (n : Nat) (c : Vector T n), coefficientsOfValues (valuesOfCoefficients c) = c) ∧
    (∀ (n : Nat) (v : Vector T n), valuesOfCoefficients (coefficientsOfValues v) = v) ∧
    ∀ (m : Nat) (c : Vector T (m + 2)) (j : Fin (m + 2)), (valuesOfCoefficients c).get j
      = clenshaw (· * Scalar.ofReal ((RealLine.lobattoNodes (m + 1)).get j)) c.toList := by
  refine ⟨fun n c => coefficientsOfValues_valuesOfCoefficients h c,
    fun n v => valuesOfCoefficients_coefficientsOfValues h v, fun m c j => ?_⟩
  rw [get_valuesOfCoefficients h, clenshaw_eq_sum, Vector.get_eq_getElem,
    getElem_lobattoNodes (Nat.succ_pos m) j.isLt]

/-- The series `1 + 2 x + 3 T₂` with the infinitesimal part `x + 2 T₂`. -/
def dualSeries : Vector (Dual ℝ) 3 := Vector.ofFn fun k => ⟨k.val + 1, k.val⟩

attribute [local instance] CosineTransform.bySums in
/-- At the middle node the argument is zero and `T₂` is `-1`. -/
theorem interpolation_roundTrip_dualSeries :
    coefficientsOfValues (valuesOfCoefficients dualSeries) = dualSeries ∧
    valuesOfCoefficients (coefficientsOfValues dualSeries) = dualSeries ∧
    (valuesOfCoefficients dualSeries).get 1 = ⟨-2, -2⟩ := by
  obtain ⟨hcoefficients, hvalues, hsum⟩ :=
    interpolation_roundTrip (T := Dual ℝ) CosineTransform.exact_bySums
  refine ⟨hcoefficients 3 _, hvalues 3 _, (hsum 1 dualSeries 1).trans ?_⟩
  have hnode : (RealLine.lobattoNodes 2 : Vector ℝ 3).get 1 = 0 := by
    rw [Vector.get_eq_getElem, getElem_lobattoNodes Nat.zero_lt_two, node]
    norm_num
  have hzero : (Scalar.ofReal (0 : ℝ) : Dual ℝ) = 0 := rfl
  have hlist : dualSeries.toList = [⟨1, 0⟩, ⟨2, 1⟩, ⟨3, 2⟩] := by
    rw [dualSeries, Vector.toList_ofFn]
    norm_num [List.ofFn_succ]
  rw [hnode, hzero, hlist]
  simp only [clenshaw, backward]
  ext
  · norm_num
  · norm_num

end TensorChebyshev
