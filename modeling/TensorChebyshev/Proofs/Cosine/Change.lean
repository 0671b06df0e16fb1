import TensorChebyshev.Cosine.Interpolation
import TensorChebyshev.Proofs.Scalar.Change
import TensorChebyshev.Proofs.Series.Change

/-!
# Transforms under a change of scalars

The cosine transform by sums multiplies by cosines, which are real, so it goes
through a change of scalars. For the coefficients out of values the change has
to keep one quotient besides, the reciprocal of the degree.
-/

namespace TensorChebyshev

variable {T T' R : Type}

/-! ## Vectors of scalars -/

section Vectors

variable [RealLine R] [Scalar T R] [Scalar T' R] {φ : T → T'}

omit [RealLine R] in
theorem ScalarMap.sumMap (h : ScalarMap φ) : SumMap φ := ⟨h.map_zero, h.map_add, h.map_sub⟩

omit [RealLine R] in
theorem ScalarMap.sumMap_vector (h : ScalarMap φ) (n : Nat) :
    SumMap (Vector.map φ : Vector T n → Vector T' n) where
  map_zero := Vector.ext fun i hi => by simp [h.map_zero]
  map_add v w := Vector.ext fun i hi => by simp [h.map_add]
  map_sub v w := Vector.ext fun i hi => by simp [h.map_sub]

/-! ## The transform by sums -/

theorem map_cosineAt (h : ScalarMap φ) (m j k : Nat) : φ (cosineAt m j k) = cosineAt m j k :=
  h.map_ofReal _

omit [RealLine R] [Scalar T R] [Scalar T' R] in
theorem map_foldl {n : Nat} (g : T → Fin n → T) (g' : T' → Fin n → T')
    (hg : ∀ x j, φ (g x j) = g' (φ x) j) (x : T) : φ (Fin.foldl n g x) = Fin.foldl n g' (φ x) := by
  induction n with
  | zero => simp
  | succ n ih =>
      rw [Fin.foldl_succ_last, Fin.foldl_succ_last, hg]
      rw [ih (fun y j => g y j.castSucc) (fun y j => g' y j.castSucc) fun y j => hg y j.castSucc]

theorem map_cosineSums (h : ScalarMap φ) {n : Nat} (d : Vector T n) :
    (cosineSums d).map φ = cosineSums (d.map φ) := by
  match n, d with
  | 0, d => rfl
  | 1, d => rfl
  | m + 2, d =>
    refine Vector.ext fun k hk => ?_
    rw [Vector.getElem_map, cosineSums, cosineSums, Vector.getElem_ofFn, Vector.getElem_ofFn]
    simp only [Vector.getElem_map]
    have hends : φ (if k % 2 = 0 then d[0] + d[m + 1] else d[0] - d[m + 1])
        = if k % 2 = 0 then φ d[0] + φ d[m + 1] else φ d[0] - φ d[m + 1] := by
      by_cases heven : k % 2 = 0
      · rw [if_pos heven, if_pos heven, h.map_add]
      · rw [if_neg heven, if_neg heven, h.map_sub]
    rw [← hends]
    refine map_foldl _ _ (fun x j => ?_) _
    rw [h.map_add, h.map_mul, h.map_mul, h.map_two, map_cosineAt h]

omit [RealLine R] in
theorem map_scaleEnds (h : ScalarMap φ) {m : Nat} (c : T) (v : Vector T (m + 2)) :
    (scaleEnds c v).map φ = scaleEnds (φ c) (v.map φ) := by
  refine Vector.ext fun k hk => ?_
  rw [Vector.getElem_map, scaleEnds, scaleEnds, Vector.getElem_mapIdx, Vector.getElem_mapIdx,
    Vector.getElem_map]
  by_cases hend : k = 0 ∨ k = m + 1
  · rw [if_pos hend, if_pos hend, h.map_mul]
  · rw [if_neg hend, if_neg hend]

attribute [local instance] CosineTransform.bySums in
theorem map_coefficientsOfValues (h : ScalarMap φ) {n : Nat} (v : Vector T (n + 1))
    (hdiv : 0 < n → φ (1 / Scalar.ofNat n) = 1 / Scalar.ofNat n) :
    (coefficientsOfValues v).map φ = coefficientsOfValues (v.map φ) := by
  cases n with
  | zero => rfl
  | succ m =>
      have hweight := hdiv (Nat.succ_pos m)
      have hscaled : ((CosineTransform.dct v).map (· * (1 / Scalar.ofNat (m + 1) : T))).map φ
          = (CosineTransform.dct (v.map φ)).map (· * (1 / Scalar.ofNat (m + 1) : T')) := by
        show ((cosineSums v).map _).map φ = (cosineSums (v.map φ)).map _
        rw [← map_cosineSums h, Vector.map_map, Vector.map_map]
        congr 1
        funext x
        show φ (x * (1 / Scalar.ofNat (m + 1))) = φ x * (1 / Scalar.ofNat (m + 1))
        rw [h.map_mul, hweight]
      rw [coefficientsOfValues, coefficientsOfValues, map_scaleEnds h, hscaled, h.map_half]

end Vectors

end TensorChebyshev
