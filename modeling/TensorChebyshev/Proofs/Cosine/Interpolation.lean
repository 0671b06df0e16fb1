import Mathlib
import TensorChebyshev.Cosine.Interpolation
import TensorChebyshev.Proofs.Cosine.Orthogonality
import TensorChebyshev.Proofs.Product.Tensor
import TensorChebyshev.Proofs.Scalar.Real

/-!
# Values and coefficients

With a cosine transform that is the documented sum, both passages between
values at the nodes and coefficients multiply by a matrix. The values come from
the matrix of the polynomials at the nodes, and by discrete orthogonality the
other matrix undoes it, for every number of nodes.
-/

namespace TensorChebyshev

/-- The transform is the documented sum, entry by entry. -/
def CosineTransform.Exact (T : Type) [Scalar T ℝ] [CosineTransform T] : Prop :=
  ∀ (m : Nat) (d : Vector T (m + 2)) (k : Nat) (hk : k < m + 2),
    (CosineTransform.dct d)[k] = d[0] + Scalar.ofReal ((-1) ^ k) * d[m + 1]
      + Scalar.two * (List.ofFn fun j : Fin m =>
          Scalar.ofReal (Real.cos (Real.pi * ((j.val + 1) * k) / (m + 1))) * d[j.val + 1]).sum

/-! ## Weights of the nodes -/

/-- The ends count once, the other nodes twice. -/
noncomputable def endWeight (m j : Nat) : ℝ := if j = 0 ∨ j = m then 1 else RealLine.two

theorem endWeight_zero (m : Nat) : endWeight m 0 = 1 := if_pos (.inl rfl)

theorem endWeight_self (m : Nat) : endWeight m m = 1 := if_pos (.inr rfl)

theorem endWeight_inner {m j : Nat} (h : j < m) : endWeight (m + 1) (j + 1) = 2 := by
  rw [endWeight, if_neg (by omega), two_eq_real]

/-- A sum over all nodes by its ends and the nodes between them. -/
theorem sum_ends {M : Type} [AddCommMonoid M] {m : Nat} (g : Fin (m + 2) → M) :
    ∑ j, g j = g 0 + (∑ j : Fin m, g j.castSucc.succ + g (Fin.last (m + 1))) := by
  rw [Fin.sum_univ_succ, Fin.sum_univ_castSucc]
  rfl

theorem nodeSum_eq_sum (m : Nat) (f : Nat → ℝ) :
    nodeSum (m + 1) f = ∑ j : Fin (m + 2), endWeight (m + 1) j * f j := by
  have hinner : ∀ j : Fin m, endWeight (m + 1) (j.castSucc.succ : Fin (m + 2))
      * f (j.castSucc.succ : Fin (m + 2)) = 2 * f (j + 1) := fun j => by
    rw [Fin.val_succ, Fin.val_castSucc, endWeight_inner j.isLt]
  rw [sum_ends, Finset.sum_congr rfl fun j _ => hinner j, Fin.val_zero, endWeight_zero,
    Fin.val_last, endWeight_self, nodeSum, Finset.sum_add_distrib, Finset.sum_range_succ',
    Finset.sum_range_succ, ← Finset.mul_sum, Fin.sum_univ_eq_sum_range (fun j => f (j + 1)) m]
  ring

theorem node_symm (m j k : Nat) : chebyshev (node m j) k = chebyshev (node m k) j := by
  rw [chebyshev_node, chebyshev_node, mul_comm (j : ℝ)]

theorem chebyshev_node_last (m k : Nat) (hm : 0 < m) :
    chebyshev (node m k) m = (-1) ^ k := by
  have hm0 : (m : ℝ) ≠ 0 := Nat.cast_ne_zero.mpr hm.ne'
  rw [chebyshev_node, show Real.pi * (k * m) / m = k * Real.pi by field_simp,
    Real.cos_nat_mul_pi]

theorem get_scaleEnds {T : Type} [Mul T] {m : Nat} (c : T) (v : Vector T (m + 2))
    (j : Fin (m + 2)) :
    (scaleEnds c v).get j = if j.val = 0 ∨ j.val = m + 1 then v.get j * c else v.get j := by
  rw [scaleEnds, Vector.get_eq_getElem, Vector.getElem_mapIdx]
  rfl

/-! ## The transform -/

section Algebra

variable {T : Type} [Scalar T ℝ] [RealAlgebra T]

attribute [local instance] ExactRing.toCommRing

open RealAlgebra (embed)

/-- The entry of the matrix of values: a polynomial at a node. -/
noncomputable def valueEntry (T : Type) [Scalar T ℝ] [RealAlgebra T] (m k j : Nat) : T :=
  chebyshev (embed T (node m k)) j

theorem valueEntry_eq (m k j : Nat) : valueEntry T m k j = embed T (chebyshev (node m k) j) :=
  (map_chebyshev _ _ _).symm

/-- The entry of the matrix of coefficients. -/
noncomputable def coefficientEntry (T : Type) [Scalar T ℝ] [RealAlgebra T] (m k j : Nat) : T :=
  embed T (1 / m * (endWeight m k / RealLine.two) * (endWeight m j * chebyshev (node m k) j))

/-- **Coefficients of values undo values of coefficients.** -/
theorem coefficientEntry_leftInverse (m : Nat) :
    IsLeftInverse (m + 2) (coefficientEntry T (m + 1)) (valueEntry T (m + 1)) := by
  intro k l hk hl
  have hm : ((m + 1 : Nat) : ℝ) ≠ 0 := Nat.cast_ne_zero.mpr (Nat.succ_ne_zero m)
  have hentry : ∀ j : Fin (m + 2),
      coefficientEntry T (m + 1) k j * valueEntry T (m + 1) j l
        = embed T (1 / (m + 1 : Nat) * (endWeight (m + 1) k / 2)
          * (endWeight (m + 1) j * (chebyshev (node (m + 1) j) k * chebyshev (node (m + 1) j) l))) := by
    intro j
    rw [coefficientEntry, two_eq_real, valueEntry_eq, ← map_mul, node_symm (m + 1) k j]
    congr 1
    ring
  rw [Finset.sum_congr rfl fun j _ => hentry j, ← map_sum, ← Finset.mul_sum,
    ← nodeSum_eq_sum m fun j => chebyshev (node (m + 1) j) k * chebyshev (node (m + 1) j) l,
    nodeSum_orthogonal (Nat.succ_pos m) (Nat.lt_succ_iff.mp hk) (Nat.lt_succ_iff.mp hl)]
  by_cases hkl : k = l
  · rw [if_pos hkl, if_pos hkl, ← map_one (embed T)]
    congr 1
    rw [endWeight, two_eq_real]
    split
    · field_simp
    · field_simp
  · rw [if_neg hkl, if_neg hkl, mul_zero, map_zero]

variable [CosineTransform T]

theorem dct_eq_sum (h : CosineTransform.Exact T) {m : Nat} (d : Vector T (m + 2)) (k : Nat)
    (hk : k < m + 2) :
    (CosineTransform.dct d)[k]
      = ∑ j : Fin (m + 2),
          embed T (endWeight (m + 1) j * chebyshev (node (m + 1) k) j) * d.get j := by
  let term := fun j : Fin (m + 2) =>
    embed T (endWeight (m + 1) j * chebyshev (node (m + 1) k) j) * d.get j
  have hfirst : term 0 = d[0] := by
    show embed T (endWeight (m + 1) 0 * 1) * d[0] = d[0]
    rw [endWeight_zero, one_mul, map_one, one_mul]
  have hlast : term (Fin.last (m + 1)) = Scalar.ofReal ((-1) ^ k) * d[m + 1] := by
    show embed T (endWeight (m + 1) (m + 1) * chebyshev (node (m + 1) k) (m + 1)) * d[m + 1] = _
    rw [endWeight_self, one_mul, chebyshev_node_last _ _ (Nat.succ_pos m),
      RealAlgebra.embed_apply]
  have hinner : ∀ j : Fin m, term j.castSucc.succ = Scalar.two
      * (Scalar.ofReal (Real.cos (Real.pi * ((j.val + 1) * k) / (m + 1))) * d[j.val + 1]) := by
    intro j
    have hcos : chebyshev (node (m + 1) k) (j.val + 1)
        = Real.cos (Real.pi * ((j.val + 1) * k) / (m + 1)) := by
      rw [node_symm, chebyshev_node]
      push_cast
      rfl
    show embed T (endWeight (m + 1) (j.val + 1) * chebyshev (node (m + 1) k) (j.val + 1))
      * d[j.val + 1] = _
    rw [endWeight_inner j.isLt, hcos, map_mul, mul_assoc, RealAlgebra.two_eq,
      ← RealAlgebra.embed_apply (Real.cos _)]
  rw [h m d k hk, List.sum_ofFn, Finset.mul_sum]
  show _ = ∑ j, term j
  rw [sum_ends, hfirst, hlast, Finset.sum_congr rfl fun j _ => hinner j]
  ring

/-! ## The two passages -/

theorem valuesOfCoefficients_isMatrix (h : CosineTransform.Exact T) (m : Nat) :
    IsMatrix (valuesOfCoefficients (n := m + 2)) (valueEntry T (m + 1)) := by
  intro v k
  rw [valuesOfCoefficients, Vector.get_map, Vector.get_eq_getElem, dct_eq_sum h, Finset.sum_mul]
  refine Finset.sum_congr rfl fun j _ => ?_
  have hhalf : embed T 2 * embed T (1 / 2) = 1 := by
    rw [← map_mul, mul_one_div_cancel (by norm_num), map_one]
  rw [get_scaleEnds, valueEntry_eq, RealAlgebra.half_eq, RealAlgebra.two_eq, map_mul, endWeight,
    two_eq_real]
  split
  · rw [map_one]
    linear_combination embed T (chebyshev (node (m + 1) k) j) * v.get j * hhalf
  · linear_combination embed T (chebyshev (node (m + 1) k) j) * v.get j * hhalf

theorem coefficientsOfValues_isMatrix (h : CosineTransform.Exact T) (m : Nat) :
    IsMatrix (coefficientsOfValues (n := m + 2)) (coefficientEntry T (m + 1)) := by
  intro v k
  rw [coefficientsOfValues, get_scaleEnds, Vector.get_map, Vector.get_eq_getElem, dct_eq_sum h,
    RealAlgebra.one_div_ofNat (Nat.succ_pos m), RealAlgebra.half_eq]
  have hentry : ∀ j : Fin (m + 2), coefficientEntry T (m + 1) k j * v.get j
      = embed T (endWeight (m + 1) k / 2) * embed T (1 / (m + 1 : Nat))
        * (embed T (endWeight (m + 1) j * chebyshev (node (m + 1) k) j) * v.get j) := by
    intro j
    rw [coefficientEntry, two_eq_real, map_mul, map_mul]
    ring
  rw [Finset.sum_congr rfl fun j _ => hentry j, ← Finset.mul_sum, endWeight, two_eq_real]
  split
  · norm_num
    ring
  · norm_num
    ring

/-- **For every number of nodes the coefficients are found again.** A single value is
its own coefficient. -/
theorem exists_interpolation (h : CosineTransform.Exact T) (p : Nat) :
    IsMatrix (valuesOfCoefficients (n := p)) (valueEntry T (p - 1)) ∧
      ∃ A : Nat → Nat → T, IsMatrix (coefficientsOfValues (n := p)) A ∧
        IsLeftInverse p A (valueEntry T (p - 1)) := by
  -- the cosine sum has two ends: fewer values are their own coefficients
  match p with
  | 0 =>
    exact ⟨fun _ k => k.elim0, valueEntry T 0, fun _ k => k.elim0,
      fun _ _ hk => absurd hk (Nat.not_lt_zero _)⟩
  | 1 =>
    have hone : ∀ (v : Vector T 1) (k : Fin 1),
        v.get k = ∑ j : Fin 1, valueEntry T 0 k j * v.get j := by
      intro v k
      obtain rfl := Fin.fin_one_eq_zero k
      simp [valueEntry, chebyshev]
    refine ⟨hone, valueEntry T 0, hone, fun k l hk hl => ?_⟩
    obtain rfl := Nat.lt_one_iff.mp hk
    obtain rfl := Nat.lt_one_iff.mp hl
    simp [valueEntry, chebyshev]
  | m + 2 =>
    exact ⟨valuesOfCoefficients_isMatrix h m, coefficientEntry T (m + 1),
      coefficientsOfValues_isMatrix h m, coefficientEntry_leftInverse m⟩

end Algebra

/-! ## The transform by sums -/

theorem foldl_add_eq_sum {M : Type} [AddCommMonoid M] {m : Nat} (g : Fin m → M) (c : M) :
    Fin.foldl m (fun acc j => acc + g j) c = c + ∑ j, g j := by
  induction m with
  | zero => simp
  | succ m ih => rw [Fin.foldl_succ_last, ih, Fin.sum_univ_castSucc, add_assoc]

/-- The reduced phase has the same cosine. -/
theorem cosPi_mod (t m : Nat) (hm : 0 < m) :
    RealLine.cosPi (t % (2 * m)) m = Real.cos (Real.pi * t / m) := by
  have hm0 : (m : ℝ) ≠ 0 := Nat.cast_ne_zero.mpr hm.ne'
  have ht : (t : ℝ) = (t % (2 * m) : Nat) + 2 * m * (t / (2 * m) : Nat) := by
    exact_mod_cast (Nat.mod_add_div t (2 * m)).symm
  have hturn : Real.pi * t / m
      = Real.pi * (t % (2 * m) : Nat) / m + (t / (2 * m) : Nat) * (2 * Real.pi) := by
    rw [ht]
    field_simp
  rw [hturn, Real.cos_add_nat_mul_two_pi]
  rfl

attribute [local instance] ExactRing.toCommRing in
theorem CosineTransform.exact_bySums {T : Type} [Scalar T ℝ] [RealAlgebra T] :
    @CosineTransform.Exact T _ CosineTransform.bySums := by
  intro m d k hk
  have hcos : ∀ j : Fin m, (cosineAt (m + 1) (j.val + 1) k : T)
      = Scalar.ofReal (Real.cos (Real.pi * ((j.val + 1) * k) / (m + 1))) := by
    intro j
    rw [cosineAt, cosPi_mod _ _ (Nat.succ_pos m)]
    push_cast
    rfl
  have hends : (if k % 2 = 0 then d[0] + d[m + 1] else d[0] - d[m + 1])
      = d[0] + Scalar.ofReal ((-1) ^ k) * d[m + 1] := by
    split
    · rw [(Nat.even_iff.mpr ‹_›).neg_one_pow, RealAlgebra.ofReal_one, one_mul]
    · have hodd : Odd k := Nat.odd_iff.mpr (by omega)
      rw [hodd.neg_one_pow, ← RealAlgebra.embed_apply, map_neg, map_one]
      ring
  show (cosineSums d)[k] = _
  rw [cosineSums, Vector.getElem_ofFn]
  show Fin.foldl m (fun acc j => acc + Scalar.two * cosineAt (m + 1) (j.val + 1) k * d[j.val + 1])
    (if k % 2 = 0 then d[0] + d[m + 1] else d[0] - d[m + 1]) = _
  rw [foldl_add_eq_sum, hends, List.sum_ofFn, Finset.mul_sum]
  congr 1
  refine Finset.sum_congr rfl fun j _ => ?_
  rw [hcos, mul_assoc]

end TensorChebyshev
