import Mathlib
import TensorChebyshev.Proofs.Product.Linearization

/-!
# The branches of a pair, variable by variable

A branch takes, in every variable, either the sum of the two exponents or their
distance. The two differ exactly where both exponents are positive, so there are
as many branches as choices in those variables, and no branch is met twice.
-/

namespace TensorChebyshev

/-! ## Variables that split -/

/-- The variables in which both exponents are positive. -/
def splitVariables (n : Nat) (t u : Tuple) : List Nat :=
  (List.range n).filter fun v => t.getD v 0 ≠ 0 ∧ u.getD v 0 ≠ 0

theorem splitVariables_cons (n x y : Nat) (t u : Tuple) :
    splitVariables (n + 1) (x :: t) (y :: u)
      = (if x = 0 ∨ y = 0 then [] else [0]) ++ (splitVariables n t u).map (· + 1) := by
  have hrest : ((List.range n).map Nat.succ).filter
      (fun v => (x :: t).getD v 0 ≠ 0 ∧ (y :: u).getD v 0 ≠ 0)
        = (splitVariables n t u).map (· + 1) := by
    rw [List.filter_map]
    rfl
  rw [splitVariables, List.range_succ_eq_map, List.filter_cons, hrest]
  by_cases hx : x = 0
  · simp [hx]
  · by_cases hy : y = 0
    · simp [hy]
    · simp [hx, hy]

/-- A pair is halved once for each of them. -/
theorem splits_eq_length {n : Nat} {t u : Tuple} (ht : t.length = n) (hu : u.length = n) :
    splits t u = (splitVariables n t u).length := by
  induction n generalizing t u with
  | zero =>
      obtain rfl := List.length_eq_zero_iff.mp ht
      rfl
  | succ n ih =>
      obtain ⟨x, t, rfl⟩ := List.exists_cons_of_length_eq_add_one ht
      obtain ⟨y, u, rfl⟩ := List.exists_cons_of_length_eq_add_one hu
      rw [splits, splitVariables_cons, List.length_append, List.length_map,
        ih (Nat.succ.inj ht) (Nat.succ.inj hu)]
      split <;> rfl

/-! ## Members -/

/-- Every variable of a branch has the sum or the distance of the two exponents. -/
theorem mem_branches_iff {n : Nat} {t u w : Tuple} (ht : t.length = n) (hu : u.length = n) :
    w ∈ branches t u ↔ w.length = n ∧ ∀ v < n,
      w.getD v 0 = t.getD v 0 + u.getD v 0 ∨ w.getD v 0 = distance (t.getD v 0) (u.getD v 0) := by
  induction n generalizing t u w with
  | zero =>
      obtain rfl := List.length_eq_zero_iff.mp ht
      simp [branches]
  | succ n ih =>
      obtain ⟨x, t, rfl⟩ := List.exists_cons_of_length_eq_add_one ht
      obtain ⟨y, u, rfl⟩ := List.exists_cons_of_length_eq_add_one hu
      have ih := fun w => ih (w := w) (Nat.succ.inj ht) (Nat.succ.inj hu)
      rw [mem_branches_cons]
      constructor
      · rintro ⟨r, hr, hw⟩
        obtain ⟨hlen, hvars⟩ := (ih r).mp hr
        have hhead : ∃ e, w = e :: r ∧ (e = x + y ∨ e = distance x y) := by
          rcases hw with rfl | ⟨_, rfl⟩
          · exact ⟨_, rfl, .inl rfl⟩
          · exact ⟨_, rfl, .inr rfl⟩
        obtain ⟨e, rfl, he⟩ := hhead
        refine ⟨by simp [hlen], fun v hv => ?_⟩
        cases v with
        | zero => exact he
        | succ v => exact hvars v (Nat.lt_of_succ_lt_succ hv)
      · rintro ⟨hlen, hvars⟩
        obtain ⟨e, r, rfl⟩ := List.exists_cons_of_length_eq_add_one hlen
        have hhead : e = x + y ∨ e = distance x y := hvars 0 (Nat.succ_pos n)
        refine ⟨r, (ih r).mpr ⟨Nat.succ.inj hlen, fun v hv => ?_⟩, ?_⟩
        · exact hvars (v + 1) (Nat.succ_lt_succ hv)
        -- with an exponent zero the distance is the sum
        · by_cases hxy : x = 0 ∨ y = 0
          · left
            rw [distance] at hhead
            rw [show e = x + y by omega]
          · rcases hhead with rfl | rfl
            · exact .inl rfl
            · exact .inr ⟨hxy, rfl⟩

theorem nodup_branches (t u : Tuple) : (branches t u).Nodup := by
  induction t generalizing u with
  | nil => simp [branches]
  | cons x t ih =>
      cases u with
      | nil => simp [branches]
      | cons y u =>
          have hcons : ∀ e : Nat, ((branches t u).map (e :: ·)).Nodup := fun e =>
            (ih u).map List.cons_injective
          by_cases hxy : x = 0 ∨ y = 0
          · rw [branches_cons_of_zero hxy]
            exact hcons _
          · rw [(branches_cons_perm hxy t u).nodup_iff]
            refine List.nodup_append.mpr ⟨hcons _, hcons _, ?_⟩
            intro a ha b hb hab
            obtain ⟨r, -, rfl⟩ := List.mem_map.mp ha
            obtain ⟨q, -, rfl⟩ := List.mem_map.mp hb
            have hhead := (List.cons.inj hab).1
            rw [distance] at hhead
            omega

/-- A pair of tuples has two branches for each split. -/
theorem length_branches (t u : Tuple) : (branches t u).length = 2 ^ splits t u := by
  induction t generalizing u with
  | nil => simp [branches, splits]
  | cons x t ih =>
      cases u with
      | nil => simp [branches, splits]
      | cons y u =>
          rw [splits]
          by_cases hxy : x = 0 ∨ y = 0
          · rw [if_pos hxy, branches_cons_of_zero hxy, List.length_map, ih, Nat.zero_add]
          · rw [if_neg hxy, (branches_cons_perm hxy t u).length_eq, List.length_append,
              List.length_map, List.length_map, ih, pow_add, pow_one, two_mul]

end TensorChebyshev
