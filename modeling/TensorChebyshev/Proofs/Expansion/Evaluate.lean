import Mathlib
import TensorChebyshev.Expansion.Evaluate
import TensorChebyshev.Proofs.Expansion.Value
import TensorChebyshev.Proofs.Scalar.Real

/-!
# Evaluation computes the value

The nested recurrence, with multiplication by the coordinates of a point for
its maps, sums to the value of the expansion there.
-/

namespace TensorChebyshev

section Point

variable {T : Type} [CommRing T]

/-- Multiplication by a coordinate as an additive map. -/
def timesBy (x : T) : AddMonoid.End T := AddMonoidHom.mulRight x

@[simp] theorem timesBy_apply (x c : T) : timesBy x c = c * x := rfl

theorem chebyshev_timesBy (x c : T) (k : Nat) :
    chebyshev (timesBy x) k c = c * chebyshev x k := by
  induction k using chebyshev.induct generalizing c with
  | case1 => simp [chebyshev]
  | case2 => simp [chebyshev]
  | case3 k ih1 ih0 =>
      rw [chebyshev_end_succ_succ, ih1, ih0, timesBy_apply, chebyshev]
      ring

theorem tensorMap_timesBy (xs : List T) (t : Tuple) (v : Nat) (c : T)
    (h : v + t.length ≤ xs.length) :
    tensorMap (fun v => timesBy (xs.getD v 0)) v t c = c * tensorChebyshev t (xs.drop v) := by
  induction t generalizing v c with
  | nil => simp [tensorMap, tensorChebyshev]
  | cons e t ih =>
      rw [List.length_cons] at h
      have hv : v < xs.length := by omega
      rw [tensorMap_cons_apply, chebyshev_timesBy, ih (v + 1) c (by omega),
        List.drop_eq_getElem_cons hv, tensorChebyshev, List.getD_eq_getElem?_getD,
        List.getElem?_eq_getElem hv, Option.getD_some]
      ring

end Point

section Exact

variable {T : Type} [Arithmetic T] [ExactRing T]

attribute [local instance] ExactRing.toCommRing

/-- The sum of the library at a point is the value there. -/
theorem GradedBasis.sum_timesBy (b : GradedBasis) (cs xs : List T) (hc : cs.length = b.size)
    (hx : xs.length = b.nvar) :
    b.sum (fun v c => c * xs.getD v 0) cs
      = .ok ((b.labelled cs).map fun c => c.2 * tensorChebyshev c.1 xs).sum := by
  have hsum := sum_eq (fun v => timesBy (xs.getD v 0)) b cs hc
  refine hsum.trans (congrArg (fun l => Except.ok (List.sum l)) ?_)
  refine List.map_congr_left fun c hmem => ?_
  have hlen := (mem_graded.mp (fst_mem_of_mem_labelled hmem)).1
  rw [tensorMap_timesBy xs c.1 0 c.2 (by omega), List.drop_zero]

end Exact

section Evaluate

variable {T R : Type} [Scalar T R] [ExactRing T]

attribute [local instance] ExactRing.toCommRing

namespace Expansion

theorem evaluate_of_size (e : Expansion T) (point : Array T) (h : point.size = e.nvar) :
    e.evaluate point = (.ok (e.value point.toList) : Result R T) := by
  have hget : ∀ v, point.toList.getD v 0 = point.getD v 0 := fun v => by simp
  have hsum := e.shape.sum_timesBy e.coeffs.toList point.toList e.coeffs.length_toList h
  simp only [hget] at hsum
  rw [evaluate, if_pos h, hsum]
  rfl

/-- Where the values are related at every point, so are the answers, refusals included. -/
theorem evaluate_eq_map {e e' : Expansion T} {f : T → T} (hvar : e'.nvar = e.nvar)
    (h : ∀ p : List T, p.length = e.nvar → e'.value p = f (e.value p)) (point : Array T) :
    (e'.evaluate point : Result R T) = (e.evaluate point).map f := by
  by_cases hsize : point.size = e.nvar
  · rw [evaluate_of_size e point hsize, evaluate_of_size e' point (hsize.trans hvar.symm),
      h point.toList hsize]
    rfl
  · rw [evaluate, evaluate, if_neg hsize, if_neg (by rw [hvar]; exact hsize), hvar]
    rfl

theorem evaluateScalar_of_nvar (e : Expansion T) (x : T) (h : e.nvar = 1) :
    e.evaluateScalar x = (.ok (e.value [x]) : Result R T) := by
  have hsum := e.shape.sum_timesBy e.coeffs.toList [x] e.coeffs.length_toList h.symm
  rw [GradedBasis.sum, show e.shape.nvar = 1 from h] at hsum
  rw [evaluateScalar, if_pos h]
  exact congrArg Except.ok (Except.ok.inj hsum)

/-- **Evaluation computes the expansion**: the value at a point with one coordinate
for each variable, and a refusal of every other point. In one variable the scalar
form gives the same value. The smaller bases needed on the way exist. -/
theorem evaluate_eq_value (e : Expansion T) :
    (∀ point : Array T, e.evaluate point
      = (if point.size = e.nvar then .ok (e.value point.toList)
          else .error (.coordinateCount e.nvar point.size) : Result R T)) ∧
    (∀ x : T, e.evaluateScalar x
      = (if e.nvar = 1 then .ok (e.value [x])
          else .error (.coordinateCount e.nvar 1) : Result R T)) ∧
    ∀ v : Fin (e.nvar - 1), ∃ b, GradedBasis.build (v + 1) e.degree = .ok b := by
  refine ⟨fun point => ?_, fun x => ?_, fun v => ?_⟩
  · split
    · exact e.evaluate_of_size point ‹_›
    · exact if_neg ‹_›
  · split
    · exact e.evaluateScalar_of_nvar x ‹_›
    · exact if_neg ‹_›
  -- fewer variables are admissible with the same degree
  · have hlt := v.isLt
    have hadm : Admissible (v + 1) e.degree :=
      e.shape.admissible.mono (Nat.succ_pos _) (by rw [← nvar]; omega) (Nat.le_refl _)
    exact ⟨_, GradedBasis.build_of_admissible hadm⟩

theorem admissible_plane : Admissible 2 1 := ⟨by decide, by decide, by decide⟩

/-- The function `1 + x + y`. -/
def plane (T : Type) [One T] : Expansion T where
  shape := Shape.ofAdmissible admissible_plane
  coeffs := Vector.replicate _ 1

theorem evaluate_plane : (plane ℝ).evaluate #[2, 5] = (.ok 8 : Result ℝ ℝ) := by
  have hlisted : graded 2 1 = [[0, 0], [1, 0], [0, 1]] := rfl
  have hsize : (#[2, 5] : Array ℝ).size = (plane ℝ).nvar := rfl
  have hcoeffs : (plane ℝ).coeffs.toList = [1, 1, 1] := by
    rw [plane, Vector.toList_replicate, GradedBasis.size_eq]
    rfl
  have hvalue : (plane ℝ).value [2, 5] = 8 := by
    rw [value, Shape.value, GradedBasis.labelled_eq_zip, hcoeffs]
    show ((((graded 2 1).zip [1, 1, 1]).map fun c => c.2 * tensorChebyshev c.1 [2, 5]).sum : ℝ)
      = 8
    rw [hlisted]
    norm_num [tensorChebyshev, chebyshev]
  rw [(evaluate_eq_value (plane ℝ)).1 #[2, 5], if_pos hsize, hvalue]

end Expansion

end Evaluate

end TensorChebyshev
