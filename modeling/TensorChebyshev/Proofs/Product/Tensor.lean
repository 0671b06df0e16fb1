import Mathlib
import TensorChebyshev.Product.Grid

/-!
# Transforms along all axes

A linear map that is applied along every axis of a tensor multiplies by the
tensor power of its matrix. The entry of that power for two places is the
product, over the digits of the places, of entries of the matrix; so a left
inverse of the matrix gives one of the power.
-/

namespace TensorChebyshev

variable {T : Type} {p n : Nat}

/-! ## Rows of a tensor -/

theorem place_lt (r : Fin (gridSize p n)) (j : Fin p) :
    r.val * p + j.val < gridSize p (n + 1) := by
  have h : (r.val + 1) * p ≤ gridSize p n * p := Nat.mul_le_mul_right p r.isLt
  have := j.isLt
  rw [Nat.add_mul, Nat.one_mul] at h
  rw [gridSize]
  omega

/-- The place of an entry by its row and its place there. -/
def place (r : Fin (gridSize p n)) (j : Fin p) : Fin (gridSize p (n + 1)) :=
  ⟨r.val * p + j.val, place_lt r j⟩

theorem place_val (r : Fin (gridSize p n)) (j : Fin p) : (place r j).val = j.val + r.val * p :=
  Nat.add_comm ..

theorem place_mod (r : Fin (gridSize p n)) (j : Fin p) : (place r j).val % p = j := by
  rw [place_val, Nat.add_mul_mod_self_right, Nat.mod_eq_of_lt j.isLt]

theorem place_div (r : Fin (gridSize p n)) (j : Fin p) : (place r j).val / p = r := by
  have hp : 0 < p := Nat.lt_of_le_of_lt (Nat.zero_le _) j.isLt
  rw [place_val, Nat.add_mul_div_right _ _ hp, Nat.div_eq_of_lt j.isLt, Nat.zero_add]

theorem pos_of_place {k : Nat} (hk : k < gridSize p (n + 1)) : 0 < p := by
  rcases Nat.eq_zero_or_pos p with rfl | h
  · exact absurd hk (Nat.not_lt_zero k)
  · exact h

theorem sum_places {M : Type} [AddCommMonoid M] (g : Fin (gridSize p (n + 1)) → M) :
    ∑ i, g i = ∑ r : Fin (gridSize p n), ∑ j : Fin p, g (place r j) := by
  let e : Fin (gridSize p n) × Fin p ≃ Fin (gridSize p (n + 1)) := finProdFinEquiv
  rw [← e.sum_comp, Fintype.sum_prod_type]
  refine Finset.sum_congr rfl fun r _ => Finset.sum_congr rfl fun j _ => congrArg g (Fin.ext ?_)
  show j.val + p * r.val = (place r j).val
  rw [place_val, Nat.mul_comm]

/-- The column of a tensor whose rows were mapped. -/
def mappedColumn (f : Vector T p → Vector T p) (data : Fin (gridSize p (n + 1)) → T)
    (k : Fin p) : Vector T (gridSize p n) :=
  Vector.ofFn fun r => (f (Vector.ofFn fun j => data (place r j))).get k

theorem get_mappedColumn (f : Vector T p → Vector T p)
    (data : Fin (gridSize p (n + 1)) → T) (k : Fin p) (r : Fin (gridSize p n)) :
    (mappedColumn f data k).get r = (f (Vector.ofFn fun j => data (place r j))).get k :=
  Vector.get_ofFn ..

theorem get_alongAxes_succ (f : Vector T p → Vector T p)
    (data : Vector T (gridSize p (n + 1))) (k : Fin (gridSize p (n + 1)))
    (hmod : k.val % p < p) (hdiv : k.val / p < gridSize p n) :
    (alongAxes f (n + 1) data).get k
      = (alongAxes f n (mappedColumn f data.get ⟨k.val % p, hmod⟩)).get ⟨k.val / p, hdiv⟩ := by
  refine (Vector.getElem_ofFn k.isLt).trans ?_
  refine (congrArg (fun v : Vector T (gridSize p n) => v.get ⟨k.val / p, hdiv⟩)
    (Vector.getElem_ofFn hmod)).trans ?_
  refine congrArg (fun v : Vector T (gridSize p n) => (alongAxes f n v).get ⟨k.val / p, hdiv⟩) ?_
  refine Vector.ext fun r hr => ?_
  refine (Vector.getElem_map ..).trans ?_
  refine Eq.trans ?_ (Vector.getElem_ofFn hr).symm
  exact congrArg (fun v : Vector T p => v.get ⟨k.val % p, hmod⟩) (Vector.getElem_ofFn hr)

/-! ## Tensor powers -/

section Power

variable [CommRing T]

/-- `f` multiplies by the matrix `A`. -/
def IsMatrix (f : Vector T p → Vector T p) (A : Nat → Nat → T) : Prop :=
  ∀ (v : Vector T p) (k : Fin p), (f v).get k = ∑ j : Fin p, A k j * v.get j

/-- `A` undoes `B`. -/
def IsLeftInverse (p : Nat) (A B : Nat → Nat → T) : Prop :=
  ∀ k l : Nat, k < p → l < p → ∑ j : Fin p, A k j * B j l = if k = l then 1 else 0

/-- A matrix that is undone, undoes: for square matrices one side is enough. -/
theorem IsLeftInverse.symm {A B : Nat → Nat → T} (h : IsLeftInverse p A B) :
    IsLeftInverse p B A := by
  let square (C : Nat → Nat → T) : Matrix (Fin p) (Fin p) T := Matrix.of fun k j => C k j
  have hone : square A * square B = 1 := by
    refine Matrix.ext fun k l => ?_
    rw [Matrix.mul_apply, Matrix.one_apply]
    exact (h k l k.isLt l.isLt).trans (if_congr Fin.val_inj rfl rfl)
  have hsymm : square B * square A = 1 := mul_eq_one_comm.mp hone
  intro k l hk hl
  have hentry := congrFun (congrFun hsymm ⟨k, hk⟩) ⟨l, hl⟩
  rw [Matrix.mul_apply, Matrix.one_apply] at hentry
  exact hentry.trans (if_congr Fin.ext_iff rfl rfl)

/-- A map is undone by the map of a matrix that undoes its own. -/
theorem IsMatrix.leftInverse {f g : Vector T p → Vector T p} {A B : Nat → Nat → T}
    (hf : IsMatrix f A) (hg : IsMatrix g B) (h : IsLeftInverse p A B) :
    Function.LeftInverse f g := by
  intro v
  refine Vector.ext fun k hk => ?_
  calc (f (g v))[k]
      = ∑ i : Fin p, A k i * (g v).get i := hf (g v) ⟨k, hk⟩
    _ = ∑ j : Fin p, (∑ i : Fin p, A k i * B i j) * v.get j := by
        simp only [hg v, Finset.mul_sum, Finset.sum_mul, mul_assoc]
        exact Finset.sum_comm
    _ = ∑ j : Fin p, if k = j then v.get j else 0 := by
        refine Finset.sum_congr rfl fun j _ => ?_
        rw [h k j hk j.isLt, ite_mul, one_mul, zero_mul]
    _ = v[k] := by
        rw [Finset.sum_eq_single ⟨k, hk⟩]
        · exact if_pos rfl
        · exact fun j _ hj => if_neg fun hkj => hj (Fin.ext hkj.symm)
        · exact fun hmem => absurd (Finset.mem_univ _) hmem

/-- The entry of the tensor power of a matrix. -/
def tensorEntry (p : Nat) (A : Nat → Nat → T) : (n k j : Nat) → T
  | 0, _, _ => 1
  | n + 1, k, j => A (k % p) (j % p) * tensorEntry p A n (k / p) (j / p)

theorem tensorEntry_place_right (A : Nat → Nat → T) (k : Nat) (r : Fin (gridSize p n))
    (j : Fin p) :
    tensorEntry p A (n + 1) k (place r j) = A (k % p) j * tensorEntry p A n (k / p) r := by
  rw [tensorEntry, place_mod, place_div]

theorem tensorEntry_place_left (A : Nat → Nat → T) (r : Fin (gridSize p n)) (j : Fin p)
    (l : Nat) :
    tensorEntry p A (n + 1) (place r j) l = A j (l % p) * tensorEntry p A n r (l / p) := by
  rw [tensorEntry, place_mod, place_div]

/-- **Applying a map along all axes multiplies by the tensor power of its matrix.** -/
theorem alongAxes_apply {f : Vector T p → Vector T p} {A : Nat → Nat → T} (hf : IsMatrix f A)
    (data : Vector T (gridSize p n)) (k : Fin (gridSize p n)) :
    (alongAxes f n data).get k
      = ∑ j : Fin (gridSize p n), tensorEntry p A n k j * data.get j := by
  induction n with
  | zero =>
      have hone : ∀ j : Fin (gridSize p 0), j = k := fun j =>
        Fin.ext ((Nat.lt_one_iff.mp j.isLt).trans (Nat.lt_one_iff.mp k.isLt).symm)
      rw [Finset.sum_eq_single k (fun j _ hj => absurd (hone j) hj)
        fun h => absurd (Finset.mem_univ k) h, tensorEntry, one_mul]
      rfl
  | succ n ih =>
      have hp := pos_of_place k.isLt
      have hmod : k % p < p := Nat.mod_lt _ hp
      have hdiv : k / p < gridSize p n := (Nat.div_lt_iff_lt_mul hp).mpr k.isLt
      -- the first digit goes through the row, the other digits through the column
      rw [get_alongAxes_succ f data k hmod hdiv, ih, sum_places]
      refine Finset.sum_congr rfl fun r _ => ?_
      rw [get_mappedColumn, hf, Finset.mul_sum]
      refine Finset.sum_congr rfl fun j _ => ?_
      rw [tensorEntry_place_right, Vector.get_ofFn]
      ring

theorem tensorEntry_leftInverse {A B : Nat → Nat → T} (hinv : IsLeftInverse p A B) (n : Nat) :
    IsLeftInverse (gridSize p n) (tensorEntry p A n) (tensorEntry p B n) := by
  induction n with
  | zero =>
      intro k l hk hl
      have hk0 : k = 0 := Nat.lt_one_iff.mp hk
      have hl0 : l = 0 := Nat.lt_one_iff.mp hl
      subst hk0 hl0
      show ∑ j : Fin 1, tensorEntry p A 0 0 j * tensorEntry p B 0 j 0 = 1
      simp [tensorEntry]
  | succ n ih =>
      intro k l hk hl
      have hp := pos_of_place hk
      have hkl : k = l ↔ k % p = l % p ∧ k / p = l / p := by
        constructor
        · rintro rfl
          exact ⟨rfl, rfl⟩
        · rintro ⟨hmod, hdiv⟩
          rw [← Nat.mod_add_div k p, ← Nat.mod_add_div l p, hmod, hdiv]
      have hrow : ∀ r : Fin (gridSize p n), ∑ j : Fin p,
          tensorEntry p A (n + 1) k (place r j) * tensorEntry p B (n + 1) (place r j) l
            = (∑ j : Fin p, A (k % p) j * B j (l % p))
              * (tensorEntry p A n (k / p) r * tensorEntry p B n r (l / p)) := by
        intro r
        rw [Finset.sum_mul]
        refine Finset.sum_congr rfl fun j _ => ?_
        rw [tensorEntry_place_right, tensorEntry_place_left]
        ring
      rw [sum_places, Finset.sum_congr rfl fun r _ => hrow r, ← Finset.mul_sum,
        hinv _ _ (Nat.mod_lt _ hp) (Nat.mod_lt _ hp),
        ih _ _ ((Nat.div_lt_iff_lt_mul hp).mpr hk) ((Nat.div_lt_iff_lt_mul hp).mpr hl)]
      by_cases h : k % p = l % p
      · by_cases h' : k / p = l / p
        · rw [if_pos h, if_pos h', if_pos (hkl.mpr ⟨h, h'⟩), one_mul]
        · rw [if_neg h', if_neg fun he => h' (hkl.mp he).2, mul_zero]
      · rw [if_neg h, if_neg fun he => h (hkl.mp he).1, zero_mul]

end Power

end TensorChebyshev
