import Mathlib
import TensorChebyshev.Proofs.Expansion.Value
import TensorChebyshev.Proofs.Product.Combination

/-!
# Coefficients as a combination

The coefficients of a shape with the tuples of its basis, and back: the sum
against the indicator of a tuple is the coefficient at its position.
-/

namespace TensorChebyshev

namespace GradedBasis

/-- The tuple at a position, empty beyond the last one. -/
def tupleAt (b : GradedBasis) (i : Nat) : Tuple := b.tuples.getD i []

variable {b : GradedBasis} {i j : Nat} {t : Tuple}

theorem tuples_getElem?_of_lt (h : i < b.size) : b.tuples[i]? = some (b.tupleAt i) := by
  rw [tupleAt, Array.getD_eq_getD_getElem?, Array.getElem?_eq_getElem h, Option.getD_some]

theorem tupleAt_of_getElem? (h : b.tuples[i]? = some t) : b.tupleAt i = t := by
  rw [tupleAt, Array.getD_eq_getD_getElem?, h, Option.getD_some]

theorem tupleAt_mem (h : i < b.size) :
    (b.tupleAt i).length = b.nvar ∧ totalDegree (b.tupleAt i) ≤ b.degree :=
  b.mem_of_getElem? (tuples_getElem?_of_lt h)

theorem tupleAt_inj (hi : i < b.size) (hj : j < b.size) : b.tupleAt i = b.tupleAt j ↔ i = j := by
  refine ⟨fun h => ?_, fun h => h ▸ rfl⟩
  have h1 := b.rank?_eq_some_iff.mpr (tuples_getElem?_of_lt hi)
  rw [h, b.rank?_eq_some_iff.mpr (tuples_getElem?_of_lt hj)] at h1
  exact (Option.some.inj h1).symm

end GradedBasis

/-- A sum with one changed entry. -/
theorem sum_eq_add_of_ne {M : Type} [AddCommMonoid M] {n : Nat} {f g : Fin n → M} (k : Fin n)
    {δ : M} (hk : f k = g k + δ) (hne : ∀ j, j ≠ k → f j = g j) :
    ∑ j, f j = ∑ j, g j + δ := by
  have hrest : ∑ j ∈ Finset.univ.erase k, f j = ∑ j ∈ Finset.univ.erase k, g j :=
    Finset.sum_congr rfl fun j hj => hne j (Finset.ne_of_mem_erase hj)
  calc ∑ j, f j
      = f k + ∑ j ∈ Finset.univ.erase k, f j := (Finset.add_sum_erase _ _ (Finset.mem_univ k)).symm
    _ = g k + ∑ j ∈ Finset.univ.erase k, g j + δ := by rw [hk, hrest, add_right_comm]
    _ = ∑ j, g j + δ := by rw [Finset.add_sum_erase _ _ (Finset.mem_univ k)]

namespace Shape

section Terms

variable {T : Type} {s : Shape}

def terms (v : s.Coefficients T) : Combination T := s.labelled v.toList

theorem value_eq_eval [Arithmetic T] (v : s.Coefficients T) (x : List T) :
    value v x = (terms v).eval (tensorChebyshev · x) := rfl

theorem terms_eq_map_zipIdx (v : s.Coefficients T) :
    terms v = v.toList.zipIdx.map fun x => (s.tupleAt x.2, x.1) := by
  have hlen : (terms v).length = s.size := GradedBasis.length_labelled v.length_toList
  refine List.ext_getElem (by simp [hlen]) fun i hi _ => ?_
  have htuple := GradedBasis.tuples_getElem?_of_lt (hlen ▸ hi)
  rw [GradedBasis.tuples_getElem?] at htuple
  have hget := (List.getElem?_eq_some_iff.mp htuple).2
  simp [terms, GradedBasis.labelled_eq_zip, hget]

theorem terms_eq_ofFn (v : s.Coefficients T) :
    terms v = List.ofFn fun i : Fin s.size => (s.tupleAt i, v.get i) := by
  rw [terms_eq_map_zipIdx]
  exact List.ext_getElem (by simp) (by simp [Vector.get_eq_getElem])

theorem length_of_mem_terms {v : s.Coefficients T} {c : Tuple × T} (hc : c ∈ terms v) :
    c.1.length = s.nvar :=
  (mem_graded.mp (GradedBasis.fst_mem_of_mem_labelled hc)).1

theorem degree_of_mem_terms {v : s.Coefficients T} {c : Tuple × T} (hc : c ∈ terms v) :
    totalDegree c.1 ≤ s.degree :=
  (mem_graded.mp (GradedBasis.fst_mem_of_mem_labelled hc)).2

end Terms

/-! ## Reading coefficients -/

section Exact

variable {T : Type} [Arithmetic T] [ExactRing T] {s : Shape}

attribute [local instance] ExactRing.toCommRing

theorem eval_terms (v : s.Coefficients T) (φ : Tuple → T) :
    (terms v).eval φ = ∑ i : Fin s.size, v.get i * φ (s.tupleAt i) := by
  rw [terms_eq_ofFn, Combination.eval, List.map_ofFn, List.sum_ofFn]
  rfl

theorem coefficient_terms (v : s.Coefficients T) {i : Nat} (hi : i < s.size) :
    (terms v).coefficient (s.tupleAt i) = v[i] := by
  rw [Combination.coefficient, eval_terms, Finset.sum_eq_single (⟨i, hi⟩ : Fin s.size)]
  · rw [if_pos rfl, mul_one]
    rfl
  · intro j _ hj
    have hne : s.tupleAt j ≠ s.tupleAt i := fun h =>
      hj (Fin.ext ((GradedBasis.tupleAt_inj j.isLt hi).mp h))
    rw [if_neg hne, mul_zero]
  · exact fun h => absurd (Finset.mem_univ _) h

theorem eval_zeros (φ : Tuple → T) : (terms (Vector.replicate s.size (0 : T))).eval φ = 0 := by
  rw [eval_terms]
  refine Finset.sum_eq_zero fun i _ => ?_
  simp

theorem eval_foldl {α : Type} (f : s.Coefficients T → α → s.Coefficients T) (φ : Tuple → T)
    (δ : α → T) (l : List α)
    (h : ∀ v, ∀ x ∈ l, (terms (f v x)).eval φ = (terms v).eval φ + δ x) (v : s.Coefficients T) :
    (terms (l.foldl f v)).eval φ = (terms v).eval φ + (l.map δ).sum := by
  induction l generalizing v with
  | nil => simp
  | cons x l ih =>
      rw [List.foldl_cons, ih fun v y hy => h v y (List.mem_cons_of_mem _ hy),
        h v x (List.mem_cons_self ..), List.map_cons, List.sum_cons, add_assoc]

end Exact

end Shape

end TensorChebyshev
