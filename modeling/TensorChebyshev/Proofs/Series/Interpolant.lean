import Mathlib
import TensorChebyshev.Proofs.Cosine.RoundTrip
import TensorChebyshev.Proofs.Expansion.ComposeSeries
import TensorChebyshev.Proofs.Scalar.Ordered
import TensorChebyshev.Proofs.Series.Nodes
import TensorChebyshev.Proofs.Series.Polynomial

/-!
# A fit interpolates

The coefficients of a fit come from the samples, and values and coefficients
determine each other, so the series takes the samples again. A polynomial that
the degree has room for is a series itself, and there is one series only with
its samples: the fit is the polynomial everywhere, also at scalars that are no
real numbers and on intervals that run backwards.
-/

namespace TensorChebyshev

variable {T : Type} [Scalar T ℝ] [RealAlgebra T]

attribute [local instance] ExactRing.toCommRing

namespace RealAlgebra

theorem two_eq_ofNat : (Scalar.two : T) = 2 := by
  rw [two_eq, map_ofNat]

theorem div_two (x : T) : x / Scalar.two = Scalar.half * x := by
  have hinverse : (Scalar.two : T) * Scalar.half = 1 := by
    rw [two_eq_ofNat, two_mul, half_add_half]
  rw [div_eq x Scalar.two Scalar.half hinverse, mul_comm]

end RealAlgebra

variable [CosineTransform T]

/-- The series with the coefficients of the samples takes the samples at the nodes. -/
theorem sum_coefficientsOfValues_node (h : CosineTransform.Exact T) (f : T → T) (a b : T) {n : Nat}
    (hpos : 0 < n) (j : Fin (n + 1)) :
    ∑ k : Fin (n + 1), (coefficientsOfValues ((samplePoints a b n).map f)).get k
        * chebyshev (Scalar.ofReal (node n j)) k
      = f (Scalar.half * (a + b) + Scalar.half * (b - a) * Scalar.ofReal (node n j)) := by
  obtain ⟨m, rfl⟩ : ∃ m, n = m + 1 := ⟨n - 1, (Nat.sub_add_cancel hpos).symm⟩
  rw [← get_valuesOfCoefficients h, valuesOfCoefficients_coefficientsOfValues h, Vector.get_map,
    samplePoints, Vector.get_map, Vector.get_eq_getElem, getElem_lobattoNodes hpos j.isLt]

/-- The series of a fitted polynomial is the polynomial, if the degree has room for it. -/
theorem sum_fit_polynomial (h : CosineTransform.Exact T) {f : T → T} {a b w : T} {n : Nat}
    (hwidth : intervalWidth a b = .ok (b - a)) (hw : (b - a) * w = 1) (hn : n ≤ maxDegree)
    {c : Vector T (n + 1)} (hfit : fit f a b n = .ok c.toList) {P : Polynomial T}
    (hP : P.natDegree ≤ n) (hf : ∀ t, f t = P.eval t) (t : T) :
    ∑ k : Fin (n + 1), c.get k * chebyshev ((Scalar.two * t - (a + b)) / (b - a)) k = f t := by
  obtain ⟨d, -, hsamples, hvalues⟩ :=
    exists_mapped_series (RealAlgebra.half_add_half (T := T)) P hP hw
  have hseries : fit f a b n = .ok ((List.range (n + 1)).map d) :=
    fit_series h d hwidth hn fun s => (hf _).trans (hsamples (Scalar.ofReal s))
  have hlist : c.toList = (List.range (n + 1)).map d := Except.ok.inj (hfit.symm.trans hseries)
  have hget : ∀ k : Fin (n + 1), c.get k = d k := by
    intro k
    have hlt : k.val < c.toList.length := k.isLt.trans_eq c.length_toList.symm
    simpa [Vector.get_eq_getElem] using List.getElem_of_eq hlist hlt
  rw [hf, hvalues, Finset.sum_range, RealAlgebra.two_eq_ofNat, RealAlgebra.div_eq _ _ w hw]
  exact Finset.sum_congr rfl fun k _ => by rw [hget]

/-- **A fit interpolates and finds polynomials again.** On an interval of invertible width it
has as many coefficients as nodes, and their series takes the values of the function at the
nodes. If the function is a polynomial of at most the fitted degree, the series, read through
the map of the interval onto `[-1, 1]`, is the function. -/
theorem fit_interpolates (h : CosineTransform.Exact T)
    (hmagnitude : ∀ x : T, IsUnit x → Scalar.magnitude x ≠ 0) (f : T → T) (a b : T)
    (hwidth : IsUnit (b - a)) (n : Nat) (hpos : 1 ≤ n) (hn : n ≤ 100) :
    ∃ c : Vector T (n + 1), fit f a b n = .ok c.toList ∧
      (∀ j : Nat, j ≤ n →
        ∑ k : Fin (n + 1), c.get k * chebyshev (Scalar.ofReal (Real.cos (Real.pi * j / n))) k
          = f ((a + b) / Scalar.two
              + (b - a) / Scalar.two * Scalar.ofReal (Real.cos (Real.pi * j / n)))) ∧
      ∀ P : Polynomial T, P.natDegree ≤ n → (∀ t, f t = P.eval t) → ∀ t : T,
        ∑ k : Fin (n + 1), c.get k * chebyshev ((Scalar.two * t - (a + b)) / (b - a)) k = f t := by
  have hinterval : intervalWidth a b = .ok (b - a) :=
    Expansion.intervalWidth_of_isUnit (fun x hx => ⟨eq_false_of_ne_true fun hzero =>
      hmagnitude x hx ((ExactRing.isZero_iff _).mp hzero), rfl⟩) hwidth
  obtain ⟨w, hw⟩ := hwidth.exists_right_inv
  have hfit := fit_of_pos f hinterval hpos hn
  refine ⟨_, hfit, fun j hj => ?_, fun P hP hf t =>
    sum_fit_polynomial h hinterval hw hn hfit hP hf t⟩
  rw [RealAlgebra.div_two, RealAlgebra.div_two]
  exact sum_coefficientsOfValues_node h f a b hpos ⟨j, Nat.lt_succ_of_le hj⟩

attribute [local instance] CosineTransform.bySums in
/-- The cube over dual numbers, on the interval from `3 + ε` back to `1`. -/
theorem fit_interpolates_cube :
    ∃ c : Vector (Dual ℝ) 4, fit (fun t => t * t * t) (⟨3, 1⟩ : Dual ℝ) ⟨1, 0⟩ 3 = .ok c.toList ∧
      ∀ t : Dual ℝ, ∑ k : Fin 4, c.get k
          * chebyshev ((Scalar.two * t - (⟨3, 1⟩ + ⟨1, 0⟩)) / (⟨1, 0⟩ - ⟨3, 1⟩)) k
        = t * t * t := by
  have hmagnitude : ∀ x : Dual ℝ, IsUnit x → Scalar.magnitude x ≠ 0 := by
    intro x hx hzero
    obtain ⟨y, hy⟩ := hx.exists_right_inv
    rw [(orderedScalars_real.magnitude_eq_zero_dual x).mp hzero, zero_mul] at hy
    exact zero_ne_one (congrArg Dual.re hy)
  have hwidth : IsUnit ((⟨1, 0⟩ : Dual ℝ) - ⟨3, 1⟩) := by
    refine isUnit_iff_exists_inv.mpr ⟨⟨-1 / 2, 1 / 4⟩, ?_⟩
    ext
    · show ((1 - 3 : ℝ) * (-1 / 2)) = 1
      norm_num
    · show ((1 - 3 : ℝ) * (1 / 4) + (0 - 1) * (-1 / 2)) = 0
      norm_num
  obtain ⟨c, hfit, -, hcube⟩ := fit_interpolates CosineTransform.exact_bySums hmagnitude
    (fun t : Dual ℝ => t * t * t) ⟨3, 1⟩ ⟨1, 0⟩ hwidth 3 (by decide) (by decide)
  refine ⟨c, hfit, hcube (Polynomial.X ^ 3) (Polynomial.natDegree_X_pow_le 3) fun t => ?_⟩
  rw [Polynomial.eval_pow, Polynomial.eval_X]
  ring

end TensorChebyshev
