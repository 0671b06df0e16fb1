import TensorChebyshev.Index.Cells
import TensorChebyshev.Proofs.Index.Listing

/-!
# Cells of admissible bases

An admissible basis is small enough for its addresses: every position, and
every address of a cell, fits a word. So inside the basis neither rule for
overflow is ever consulted, and the cells of a position hold its tuple.
-/

namespace TensorChebyshev

/-! ## Sizes -/

theorem lt_wordBound_of_numberable {n s : Nat} (h : numberable n s = true) :
    n + s < wordBound := by
  by_contra hlarge
  rw [numberable, count?, if_neg hlarge] at h
  cases h

theorem atMost_of_numberable {n s : Nat} (h : numberable n s = true) :
    atMost n s < halfWordBound ∧ atMost n s * n < wordBound := by
  have hsum := lt_wordBound_of_numberable h
  rw [numberable, count?_eq (by omega) (by omega)] at h
  split at h
  · simpa using h
  · cases h

namespace GradedBasis

variable (b : GradedBasis)

theorem size_eq_atMost : b.size = atMost b.nvar b.degree := by
  rw [size_eq, length_graded]

theorem size_lt_halfWordBound : b.size < halfWordBound := by
  rw [size_eq_atMost]
  exact (atMost_of_numberable b.admissible.numberable).1

theorem cells_lt_wordBound : b.size * b.nvar < wordBound := by
  rw [size_eq_atMost]
  exact (atMost_of_numberable b.admissible.numberable).2

theorem length_of_mem {t : Tuple} (h : t ∈ graded b.nvar b.degree) : t.length = b.nvar :=
  (mem_graded.mp h).1

end GradedBasis

/-! ## Addresses -/

theorem Overflow.word?_of_lt (o : Overflow) {n : Nat} (h : n < wordBound) :
    o.word? n = some n := by
  cases o with
  | fault => exact if_pos h
  | wrap => exact congrArg some (Nat.mod_eq_of_lt h)

namespace GradedBasis

variable (b : GradedBasis) (o : Overflow)

theorem start?_of_le {i : Nat} (h : i ≤ b.size) : b.start? o i = some (i * b.nvar) :=
  o.word?_of_lt (Nat.lt_of_le_of_lt (Nat.mul_le_mul_right b.nvar h) b.cells_lt_wordBound)

theorem stop?_of_lt {i : Nat} (h : i < b.size) : b.stop? o i = some ((i + 1) * b.nvar) := by
  have hword : i + 1 < wordBound :=
    Nat.lt_trans (Nat.lt_of_le_of_lt h b.size_lt_halfWordBound) (by decide)
  rw [stop?, o.word?_of_lt hword, Option.bind_some, b.start?_of_le o h]

end GradedBasis

/-- Rows of one length, written one after the other, are found again by their
addresses. -/
theorem drop_take_flatten {α : Type} {n : Nat} {rows : List (List α)}
    (h : ∀ r ∈ rows, r.length = n) {i : Nat} (hi : i < rows.length) :
    (rows.flatten.drop (i * n)).take n = rows[i] := by
  induction rows generalizing i with
  | nil => simp at hi
  | cons r rows ih =>
      have hr : r.length = n := h r (List.mem_cons_self ..)
      rw [List.flatten_cons]
      cases i with
      | zero => simp [← hr]
      | succ i =>
          rw [Nat.succ_mul, Nat.add_comm, ← List.drop_drop, ← hr, List.drop_left, hr]
          exact ih (fun r hr => h r (List.mem_cons_of_mem _ hr)) (by simpa using hi)

theorem length_flatten_rows {α : Type} {n : Nat} {rows : List (List α)}
    (h : ∀ r ∈ rows, r.length = n) : rows.flatten.length = rows.length * n := by
  rw [List.length_flatten, List.map_congr_left h, List.map_const', List.sum_replicate_nat]

namespace GradedBasis

variable (b : GradedBasis)

theorem size_cells : b.cells.size = b.size * b.nvar := by
  rw [cells_eq, size_eq, List.size_toArray,
    length_flatten_rows fun t ht => b.length_of_mem ht]

/-- **Inside the basis the cells hold the tuples**, whatever becomes of
addresses that are too large. -/
theorem tupleAtWord?_of_lt (o : Overflow) (i : UInt64) (h : i.toNat < b.size) :
    b.tupleAtWord? o i = b.tuples[i.toNat]? := by
  have hrows : ∀ t ∈ graded b.nvar b.degree, t.length = b.nvar := fun t ht =>
    b.length_of_mem ht
  have hi : i.toNat < (graded b.nvar b.degree).length := by rwa [← size_eq]
  have hstart : i.toNat * b.nvar ≤ (i.toNat + 1) * b.nvar :=
    Nat.mul_le_mul_right _ (Nat.le_succ _)
  have hstop : (i.toNat + 1) * b.nvar ≤ b.cells.size := by
    rw [size_cells]
    exact Nat.mul_le_mul_right _ h
  rw [tupleAtWord?, b.start?_of_le o (Nat.le_of_lt h), b.stop?_of_lt o h]
  simp only [Option.bind_eq_bind, Option.bind_some, if_pos (And.intro hstart hstop)]
  rw [cells_eq, tuples_eq, List.extract_toArray, List.getElem?_toArray,
    List.getElem?_eq_getElem hi, ← drop_take_flatten hrows hi, List.extract_eq_drop_take',
    List.drop_take]
  congr 2
  rw [Nat.succ_mul, Nat.add_sub_cancel_left]

end GradedBasis

end TensorChebyshev
