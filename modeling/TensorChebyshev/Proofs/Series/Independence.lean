import Mathlib
import TensorChebyshev.Proofs.Series.Chebyshev

/-!
# Independence of the basis functions

The Chebyshev polynomial of degree `k` has degree exactly `k` where two is not
zero, so a series in one variable that vanishes everywhere over an infinite
domain has no coefficient. With more variables the first coordinate moves while
the others stand still: the terms with one first exponent are a coefficient of
that series, and they vanish one variable further down.
-/

namespace TensorChebyshev

variable {F : Type} [CommRing F] [IsDomain F]

/-- The Chebyshev polynomials, one of each degree. -/
noncomputable def chebyshevSequence (htwo : (1 + 1 : F) ≠ 0) : Polynomial.Sequence F where
  elems' k := Polynomial.Chebyshev.T F k
  degree_eq' k := by
    have : NeZero (2 : F) := ⟨one_add_one_eq_two (R := F) ▸ htwo⟩
    rw [Polynomial.Chebyshev.degree_T, Int.natAbs_natCast]

variable [Infinite F]

/-- A series in one variable that vanishes everywhere has no coefficients. -/
theorem eq_zero_of_chebyshev (htwo : (1 + 1 : F) ≠ 0) {S : Finset Nat} {c : Nat → F}
    (h : ∀ x : F, ∑ k ∈ S, c k * chebyshev x k = 0) : ∀ k ∈ S, c k = 0 := by
  have hpolynomial : ∑ k ∈ S, c k • chebyshevSequence htwo k = 0 := by
    refine Polynomial.funext fun x => ?_
    rw [Polynomial.eval_finsetSum, Polynomial.eval_zero, ← h x]
    refine Finset.sum_congr rfl fun k _ => ?_
    rw [Polynomial.eval_smul, smul_eq_mul, chebyshev_eq_eval]
    rfl
  exact linearIndependent_iff'.mp (chebyshevSequence htwo).linearIndependent S c hpolynomial

/-! ## Several variables -/

/-- The tuples that follow a first exponent. -/
def tails (k : Nat) (S : Finset Tuple) : Finset Tuple :=
  (S.filter fun t => t.headD 0 = k).image List.tail

section Tails

variable {n k : Nat} {S : Finset Tuple}

theorem eq_cons_of_mem {t : Tuple} (hS : ∀ t ∈ S, t.length = n + 1) (ht : t ∈ S) :
    t = t.headD 0 :: t.tail := by
  obtain ⟨e, u, rfl⟩ := List.exists_cons_of_length_eq_add_one (hS t ht)
  rfl

theorem mem_tails (hS : ∀ t ∈ S, t.length = n + 1) {u : Tuple} :
    u ∈ tails k S ↔ k :: u ∈ S := by
  constructor
  · intro hu
    obtain ⟨t, ht, rfl⟩ := Finset.mem_image.mp hu
    obtain ⟨hmem, rfl⟩ := Finset.mem_filter.mp ht
    rwa [← eq_cons_of_mem hS hmem]
  · intro hu
    exact Finset.mem_image.mpr ⟨k :: u, Finset.mem_filter.mpr ⟨hu, rfl⟩, rfl⟩

/-- A sum over tuples, by their first exponents. -/
theorem sum_eq_sum_tails {M : Type} [AddCommMonoid M] (hS : ∀ t ∈ S, t.length = n + 1)
    (f : Tuple → M) :
    ∑ t ∈ S, f t = ∑ k ∈ S.image (·.headD 0), ∑ u ∈ tails k S, f (k :: u) := by
  rw [← Finset.sum_fiberwise_of_maps_to fun t ht => Finset.mem_image_of_mem (·.headD 0) ht]
  refine Finset.sum_congr rfl fun k _ => ?_
  have hcons : ∀ t ∈ S.filter fun t => t.headD 0 = k, t = k :: t.tail := by
    intro t ht
    obtain ⟨hmem, rfl⟩ := Finset.mem_filter.mp ht
    exact eq_cons_of_mem hS hmem
  rw [tails, Finset.sum_image]
  · refine Finset.sum_congr rfl fun t ht => ?_
    rw [← hcons t ht]
  · intro t ht u hu htail
    rw [hcons t ht, hcons u hu, htail]

end Tails

/-- **The tensor products are independent**: a combination of them that vanishes
at every point has no coefficients. -/
theorem eq_zero_of_tensorChebyshev (htwo : (1 + 1 : F) ≠ 0) {n : Nat} {S : Finset Tuple}
    (hS : ∀ t ∈ S, t.length = n) {c : Tuple → F}
    (h : ∀ x : List F, x.length = n → ∑ t ∈ S, c t * tensorChebyshev t x = 0) :
    ∀ t ∈ S, c t = 0 := by
  induction n generalizing S c with
  | zero =>
      intro t ht
      have hnil : ∀ u ∈ S, u = [] := fun u hu => List.length_eq_zero_iff.mp (hS u hu)
      have hS' : S = {[]} := by
        refine Finset.eq_singleton_iff_unique_mem.mpr ⟨?_, hnil⟩
        rwa [← hnil t ht]
      have hsum := h [] rfl
      rw [hS', Finset.sum_singleton, tensorChebyshev, mul_one] at hsum
      · rwa [hnil t ht]
      · simp
  | succ n ih =>
      intro t ht
      rw [eq_cons_of_mem hS ht]
      -- all but the first coordinate are held fixed
      have hslice : ∀ x : List F, x.length = n →
          ∑ u ∈ tails (t.headD 0) S, c (t.headD 0 :: u) * tensorChebyshev u x = 0 := by
        intro x hx
        refine eq_zero_of_chebyshev htwo
          (c := fun k => ∑ u ∈ tails k S, c (k :: u) * tensorChebyshev u x) (fun z => ?_)
          (t.headD 0) (Finset.mem_image_of_mem (·.headD 0) ht)
        rw [← h (z :: x) (by simp [hx]), sum_eq_sum_tails hS]
        refine Finset.sum_congr rfl fun k _ => ?_
        rw [Finset.sum_mul]
        refine Finset.sum_congr rfl fun u _ => ?_
        rw [tensorChebyshev]
        ring
      have hlen : ∀ u ∈ tails (t.headD 0) S, u.length = n := by
        intro u hu
        exact Nat.succ.inj (hS _ ((mem_tails hS).mp hu))
      refine ih hlen hslice t.tail ((mem_tails hS).mpr ?_)
      rwa [← eq_cons_of_mem hS ht]

end TensorChebyshev
