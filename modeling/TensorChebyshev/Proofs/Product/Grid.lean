import Mathlib
import TensorChebyshev.Proofs.Cosine.Interpolation
import TensorChebyshev.Proofs.Product.Terms

/-!
# The grid

A place on the grid is a point, whose coordinates are the nodes of its digits,
and a tuple with exponents below the number of nodes is a place. With these the
tensor of coefficients that is transformed along all axes holds the values at
the points, and the transform of the values of any combination with such tuples
holds its coefficients.
-/

namespace TensorChebyshev

/-! ## Places of tuples -/

/-- The exponents are digits below `p`. -/
def Tuple.Fits (p : Nat) (t : Tuple) : Prop := ∀ e ∈ t, e < p

theorem Tuple.Fits.cons {p e : Nat} {t : Tuple} (h : Tuple.Fits p (e :: t)) :
    e < p ∧ Tuple.Fits p t :=
  ⟨h e (List.mem_cons_self ..), fun f hf => h f (List.mem_cons_of_mem _ hf)⟩

theorem le_totalDegree {e : Nat} {t : Tuple} (h : e ∈ t) : e ≤ totalDegree t := by
  rw [totalDegree_eq_sum]
  exact List.le_sum_of_mem h

theorem Tuple.Fits.of_totalDegree {d : Nat} {t : Tuple} (h : totalDegree t ≤ 2 * d) :
    Tuple.Fits (gridPoints d) t := by
  intro e he
  have hle := le_totalDegree he
  rw [gridPoints]
  omega

theorem gridOffset_mod {p e : Nat} (t : Tuple) (he : e < p) : gridOffset p (e :: t) % p = e := by
  rw [gridOffset, Nat.add_mul_mod_self_left, Nat.mod_eq_of_lt he]

theorem gridOffset_div {p e : Nat} (t : Tuple) (he : e < p) :
    gridOffset p (e :: t) / p = gridOffset p t := by
  rw [gridOffset, Nat.add_mul_div_left _ _ (Nat.zero_lt_of_lt he), Nat.div_eq_of_lt he,
    Nat.zero_add]

theorem gridOffset_lt {p n : Nat} {t : Tuple} (hlen : t.length = n) (h : Tuple.Fits p t) :
    gridOffset p t < gridSize p n := by
  subst hlen
  induction t with
  | nil => exact Nat.one_pos
  | cons e t ih =>
      obtain ⟨he, ht⟩ := h.cons
      rw [List.length_cons, gridSize, ← Nat.div_lt_iff_lt_mul (Nat.zero_lt_of_lt he),
        gridOffset_div t he]
      exact ih ht

theorem gridOffset_inj {p : Nat} {t u : Tuple} (hlen : t.length = u.length)
    (ht : Tuple.Fits p t) (hu : Tuple.Fits p u) :
    gridOffset p t = gridOffset p u ↔ t = u := by
  refine ⟨fun h => ?_, fun h => h ▸ rfl⟩
  induction t generalizing u with
  | nil => exact (List.length_eq_zero_iff.mp hlen.symm).symm
  | cons e t ih =>
      cases u with
      | nil => cases hlen
      | cons f u =>
          obtain ⟨he, ht⟩ := ht.cons
          obtain ⟨hf, hu⟩ := hu.cons
          have hmod := congrArg (· % p) h
          have hdiv := congrArg (· / p) h
          simp only [gridOffset_mod t he, gridOffset_mod u hf] at hmod
          simp only [gridOffset_div t he, gridOffset_div u hf] at hdiv
          rw [hmod, ih (Nat.succ.inj hlen) ht hu hdiv]

/-! ## Points of places -/

/-- The point of a place: one node for each digit. -/
def gridPoint {T : Type} (x : Nat → T) (p : Nat) : (n k : Nat) → List T
  | 0, _ => []
  | n + 1, k => x (k % p) :: gridPoint x p n (k / p)

theorem length_gridPoint {T : Type} (x : Nat → T) (p n k : Nat) :
    (gridPoint x p n k).length = n := by
  induction n generalizing k with
  | zero => rfl
  | succ n ih => rw [gridPoint, List.length_cons, ih]

/-- The tensor power of the matrix of values holds the basis functions at the points. -/
theorem tensorEntry_gridOffset {T : Type} [CommRing T] (x : Nat → T) {p : Nat} {t : Tuple}
    (h : Tuple.Fits p t) (k : Nat) :
    tensorEntry p (fun k j => chebyshev (x k) j) t.length k (gridOffset p t)
      = tensorChebyshev t (gridPoint x p t.length k) := by
  induction t generalizing k with
  | nil => rfl
  | cons e t ih =>
      obtain ⟨he, ht⟩ := h.cons
      rw [List.length_cons, tensorEntry, gridOffset_mod t he, gridOffset_div t he, ih ht]
      rfl

/-! ## Scattering -/

/-- Writing to distinct zero entries adds to a sum over all entries. -/
theorem sum_foldl_set {T : Type} [CommRing T] {N : Nat} (g : Nat → T) (l : List (T × Nat))
    (data : Vector T N) (hnodup : (l.map Prod.snd).Nodup)
    (hzero : ∀ x ∈ l, data[x.2]? = some 0) :
    ∑ j : Fin N, g j * (l.foldl (fun data x => data.setIfInBounds x.2 x.1) data).get j
      = (∑ j : Fin N, g j * data.get j) + (l.map fun x => g x.2 * x.1).sum := by
  induction l generalizing data with
  | nil => simp
  | cons x l ih =>
      obtain ⟨hx, hrest⟩ := List.nodup_cons.mp hnodup
      have hget := hzero x (List.mem_cons_self ..)
      obtain ⟨hlt, hval⟩ := Vector.getElem?_eq_some_iff.mp hget
      -- no later write goes to this entry, so what the rest writes to is still zero
      have hzero' : ∀ y ∈ l, (data.setIfInBounds x.2 x.1)[y.2]? = some 0 := by
        intro y hy
        have hne : x.2 ≠ y.2 := fun h => hx (h ▸ List.mem_map_of_mem hy)
        rw [Vector.getElem?_setIfInBounds_ne hne]
        exact hzero y (List.mem_cons_of_mem _ hy)
      have hstep : ∑ j : Fin N, g j * (data.setIfInBounds x.2 x.1).get j
          = (∑ j : Fin N, g j * data.get j) + g x.2 * x.1 := by
        refine sum_eq_add_of_ne ⟨x.2, hlt⟩ ?_ fun j hj => ?_
        · rw [Vector.get_eq_getElem, Vector.get_eq_getElem, Vector.getElem_setIfInBounds,
            if_pos rfl, hval, mul_zero, zero_add]
        · have hne : x.2 ≠ j.val := fun h => hj (Fin.ext h.symm)
          rw [Vector.get_eq_getElem, Vector.get_eq_getElem, Vector.getElem_setIfInBounds,
            if_neg hne]
      rw [List.foldl_cons, ih _ hrest hzero', hstep, List.map_cons, List.sum_cons, add_assoc]

end TensorChebyshev
