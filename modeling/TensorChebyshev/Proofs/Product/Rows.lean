import TensorChebyshev.Proofs.Index.Positions
import TensorChebyshev.Proofs.Product.Linearization

/-!
# Product rows

Rows are kept for pairs of positions `i ≤ j`, in a triangle. The row found for
two positions, in whichever order they are given, is that of their tuples.
-/

namespace TensorChebyshev

/-! ## The triangle -/

theorem slot_succ (n : Nat) : slot 0 (n + 1) = slot 0 n + (n + 1) := by
  have h : (n + 1) * (n + 1 + 1) = n * (n + 1) + 2 * (n + 1) := by ring
  rw [slot, slot, h, Nat.add_mul_div_left _ _ (by decide)]
  omega

theorem slot_eq_add (lo hi : Nat) : slot lo hi = slot 0 hi + lo := rfl

variable {α : Type} (f : Nat → Nat → α)

theorem length_triangle (n : Nat) :
    ((List.range n).flatMap fun j => (List.range (j + 1)).map (f j)).length = slot 0 n := by
  induction n with
  | zero => rfl
  | succ n ih =>
      rw [List.range_succ, List.flatMap_append, List.length_append, ih, slot_succ]
      simp

theorem getElem?_triangle {lo hi n : Nat} (hle : lo ≤ hi) (hlt : hi < n) :
    ((List.range n).flatMap fun j => (List.range (j + 1)).map (f j))[slot lo hi]?
      = some (f hi lo) := by
  induction n with
  | zero => omega
  | succ n ih =>
      rw [List.range_succ, List.flatMap_append, List.flatMap_singleton]
      rcases Nat.lt_or_eq_of_le (Nat.le_of_lt_succ hlt) with h | rfl
      · have hold := ih h
        rw [List.getElem?_append_left (List.getElem?_eq_some_iff.mp hold).1, hold]
      -- the last row begins where the smaller triangle ends
      · rw [slot_eq_add, ← length_triangle f hi, List.getElem?_append_right (Nat.le_add_right _ _),
          Nat.add_sub_cancel_left]
        simp [Nat.lt_succ_of_le hle]

theorem toList_ofFn_val {n : Nat} (g : Nat → α) :
    (Array.ofFn fun i : Fin n => g i).toList = (List.range n).map g :=
  List.ext_getElem (by simp) (by simp)

/-! ## Rows of a shape -/

theorem toList_productRows (nvar degree : Nat) (tuples : Array Tuple) :
    (productRows nvar degree tuples).toList
      = (List.range tuples.size).flatMap fun j => (List.range (j + 1)).map fun i =>
          ProductRow.ofTuples nvar degree (tuples.getD i []) (tuples.getD j []) := by
  have hrow : ∀ j : Fin tuples.size,
      (Array.ofFn fun i : Fin (j.val + 1) =>
        have : i.val < tuples.size := Nat.lt_of_lt_of_le i.isLt j.isLt
        ProductRow.ofTuples nvar degree tuples[i.val] tuples[j])
        = ((List.range (j.val + 1)).map fun i =>
          ProductRow.ofTuples nvar degree (tuples.getD i []) (tuples.getD j [])).toArray := by
    intro j
    rw [← toList_ofFn_val, Array.toArray_toList]
    congr 1
    funext i
    have hi : i.val < tuples.size := Nat.lt_of_lt_of_le i.isLt j.isLt
    simp [hi]
  rw [productRows, Array.toList_flatten]
  simp only [hrow]
  rw [toList_ofFn_val fun j => ((List.range (j + 1)).map fun i =>
    ProductRow.ofTuples nvar degree (tuples.getD i []) (tuples.getD j [])).toArray]
  rw [List.map_map, List.flatMap_def]
  rfl

theorem ProductRow.ofTuples_comm (nvar degree : Nat) (t u : Tuple) :
    ofTuples nvar degree t u = ofTuples nvar degree u t := by
  rw [ofTuples, ofTuples, branches_comm, splits_comm]

namespace Shape

variable {s : Shape} {i j : Nat} {t u : Tuple}

/-- There is a row for every two positions in order, that of their tuples. -/
theorem getElem?_products (ht : s.tuples[i]? = some t) (hu : s.tuples[j]? = some u)
    (hij : i ≤ j) :
    s.products.get[slot i j]? = some (ProductRow.ofTuples s.nvar s.degree t u) := by
  obtain ⟨hj, hju⟩ := Array.getElem?_eq_some_iff.mp hu
  have hti : s.tuples.getD i [] = t := by rw [Array.getD_eq_getD_getElem?, ht, Option.getD_some]
  have huj : s.tuples.getD j [] = u := by rw [Array.getD_eq_getD_getElem?, hu, Option.getD_some]
  rw [s.products.get_eq]
  show (productRows s.nvar s.degree s.tuples)[slot i j]? = _
  rw [← Array.getElem?_toList, toList_productRows, getElem?_triangle _ hij hj, hti, huj]

theorem product_of_le (ht : s.tuples[i]? = some t) (hu : s.tuples[j]? = some u) (hij : i ≤ j) :
    s.product i j = ProductRow.ofTuples s.nvar s.degree t u := by
  rw [product, Nat.min_eq_left hij, Nat.max_eq_right hij, getElem?_products ht hu hij,
    Option.getD_some]

/-- **The row of two positions is the product of their tuples.** -/
theorem product_eq (ht : s.tuples[i]? = some t) (hu : s.tuples[j]? = some u) :
    s.product i j = ProductRow.ofTuples s.nvar s.degree t u := by
  rcases Nat.le_total i j with hij | hji
  · exact product_of_le ht hu hij
  · rw [ProductRow.ofTuples_comm, ← product_of_le hu ht hji, product, product, Nat.min_comm,
      Nat.max_comm]

end Shape

end TensorChebyshev
