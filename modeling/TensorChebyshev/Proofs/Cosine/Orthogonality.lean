import Mathlib
import TensorChebyshev.Product.Linearization
import TensorChebyshev.Proofs.Series.Chebyshev

/-!
# Discrete orthogonality

At the nodes `cos (π j / m)` the Chebyshev polynomials up to degree `m` are
orthogonal for the sum in which the two end nodes count once and the others
twice. Products become sums of two polynomials of degree up to `2 m`, and the
nodes cannot tell degree `2 m` from degree zero: this is why the squares of the
first and the last polynomial have twice the sum of the others.
-/

namespace TensorChebyshev

/-- The node `cos (π j / m)`. -/
noncomputable def node (m j : Nat) : ℝ := Real.cos (Real.pi * j / m)

/-- The sum over the nodes in which the ends count once and the others twice. -/
noncomputable def nodeSum (m : Nat) (f : Nat → ℝ) : ℝ :=
  ∑ j ∈ Finset.range m, (f j + f (j + 1))

theorem chebyshev_cos (θ : ℝ) (k : Nat) : chebyshev (Real.cos θ) k = Real.cos (k * θ) := by
  rw [chebyshev_eq_eval, Polynomial.Chebyshev.T_real_cos, Int.cast_natCast]

theorem chebyshev_node (m j k : Nat) :
    chebyshev (node m j) k = Real.cos (Real.pi * (j * k) / m) := by
  rw [node, chebyshev_cos]
  congr 1
  ring

/-! ## One polynomial -/

theorem sin_mul_cos_add_cos (φ h : ℝ) :
    Real.sin h * (Real.cos (φ - h) + Real.cos (φ + h))
      = Real.cos h * (Real.sin (φ + h) - Real.sin (φ - h)) := by
  rw [Real.cos_add, Real.cos_sub, Real.sin_add, Real.sin_sub]
  ring

/-- Cosines at equal distances: the sum telescopes once it is multiplied by the
sine of half the distance. -/
theorem sin_mul_sum_cos (θ : ℝ) (m : Nat) :
    Real.sin (θ / 2) * ∑ j ∈ Finset.range m, (Real.cos (j * θ) + Real.cos ((j + 1 : Nat) * θ))
      = Real.cos (θ / 2) * Real.sin (m * θ) := by
  induction m with
  | zero => simp
  | succ m ih =>
      have hlow : (m : ℝ) * θ + θ / 2 - θ / 2 = m * θ := by ring
      have hhigh : (m : ℝ) * θ + θ / 2 + θ / 2 = ((m + 1 : Nat) : ℝ) * θ := by
        push_cast
        ring
      have hstep := sin_mul_cos_add_cos (m * θ + θ / 2) (θ / 2)
      rw [hlow, hhigh] at hstep
      rw [Finset.sum_range_succ, mul_add, ih, hstep]
      ring

theorem nodeSum_chebyshev_of_pos {m k : Nat} (hk : 0 < k) (hlt : k < 2 * m) :
    nodeSum m (fun j => chebyshev (node m j) k) = 0 := by
  have hm : (0 : ℝ) < m := by
    have : 0 < m := by omega
    exact_mod_cast this
  have hkm : (k : ℝ) < 2 * m := by exact_mod_cast hlt
  have hk0 : (0 : ℝ) < k := by exact_mod_cast hk
  let θ : ℝ := Real.pi * k / m
  have hterm : ∀ j : Nat, chebyshev (node m j) k = Real.cos (j * θ) := by
    intro j
    rw [chebyshev_node]
    congr 1
    ring
  have hsin : Real.sin (θ / 2) ≠ 0 := by
    refine (Real.sin_pos_of_pos_of_lt_pi (by positivity) ?_).ne'
    rw [div_div, div_lt_iff₀ (by positivity)]
    nlinarith [Real.pi_pos]
  have hend : Real.sin (m * θ) = 0 := by
    have hθ : (m : ℝ) * θ = k * Real.pi := by
      show (m : ℝ) * (Real.pi * k / m) = k * Real.pi
      field_simp
    rw [hθ, Real.sin_nat_mul_pi]
  have hsum := sin_mul_sum_cos θ m
  rw [hend, mul_zero] at hsum
  rw [nodeSum]
  simp only [hterm]
  exact (mul_eq_zero.mp hsum).resolve_left hsin

theorem nodeSum_chebyshev_of_one {m k : Nat} (h : ∀ j, chebyshev (node m j) k = 1) :
    nodeSum m (fun j => chebyshev (node m j) k) = 2 * m := by
  rw [nodeSum]
  simp only [h]
  rw [Finset.sum_const, Finset.card_range, nsmul_eq_mul]
  ring

theorem nodeSum_chebyshev {m k : Nat} (hm : 0 < m) (hk : k ≤ 2 * m) :
    nodeSum m (fun j => chebyshev (node m j) k) = if k = 0 ∨ k = 2 * m then 2 * (m : ℝ) else 0 := by
  have hm0 : (m : ℝ) ≠ 0 := Nat.cast_ne_zero.mpr hm.ne'
  split
  · rename_i h
    apply nodeSum_chebyshev_of_one
    intro j
    rcases h with rfl | rfl
    · rfl
    · rw [chebyshev_node]
      have hturn : Real.pi * (j * ((2 * m : Nat) : ℝ)) / m = j * (2 * Real.pi) := by
        push_cast
        field_simp
      rw [hturn, Real.cos_nat_mul_two_pi]
  · exact nodeSum_chebyshev_of_pos (by omega) (by omega)

/-! ## Two polynomials -/

theorem nodeSum_mul (m k l : Nat) :
    2 * nodeSum m (fun j => chebyshev (node m j) k * chebyshev (node m j) l)
      = nodeSum m (fun j => chebyshev (node m j) (k + l))
        + nodeSum m (fun j => chebyshev (node m j) (distance k l)) := by
  have hterm : ∀ j, 2 * (chebyshev (node m j) k * chebyshev (node m j) l)
      = chebyshev (node m j) (k + l) + chebyshev (node m j) (distance k l) := fun j =>
    two_mul_chebyshev_mul (node m j) k l
  rw [nodeSum, nodeSum, nodeSum, ← Finset.sum_add_distrib, Finset.mul_sum]
  refine Finset.sum_congr rfl fun j _ => ?_
  rw [mul_add, hterm, hterm]
  ring

/-- **Discrete orthogonality** of the polynomials of degree at most `m`. -/
theorem nodeSum_orthogonal {m k l : Nat} (hm : 0 < m) (hk : k ≤ m) (hl : l ≤ m) :
    nodeSum m (fun j => chebyshev (node m j) k * chebyshev (node m j) l)
      = if k = l then (if k = 0 ∨ k = m then 2 * (m : ℝ) else m) else 0 := by
  have h := nodeSum_mul m k l
  rw [nodeSum_chebyshev hm (by omega), nodeSum_chebyshev hm (by rw [distance]; omega)] at h
  -- the sum of the degrees is zero or twice `m` at the ends only, the distance is
  -- zero for equal degrees and never twice `m` for different ones
  by_cases hkl : k = l
  · subst hkl
    have hdist : distance k k = 0 := by
      rw [distance]
      omega
    by_cases hend : k = 0 ∨ k = m
    · rw [if_pos (by omega), if_pos (by omega)] at h
      rw [if_pos rfl, if_pos hend]
      linarith
    · rw [if_neg (by omega), if_pos (by omega)] at h
      rw [if_pos rfl, if_neg hend]
      linarith
  · rw [if_neg (by omega), if_neg (by rw [distance]; omega)] at h
    rw [if_neg hkl]
    linarith

end TensorChebyshev
