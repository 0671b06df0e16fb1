import Mathlib
import TensorChebyshev.Proofs.Product.Pairs
import TensorChebyshev.Proofs.Words.Masks

/-!
# Rows one after the other

The rows of all pairs are kept in one array of terms, with the offsets at which
they begin and end, and the slot of a pair says which of them is its own. The
table is filled in the order of the slots, so what is found in a slot is what was
worked out for its pair, and no number on the way to it leaves a word.
-/

namespace TensorChebyshev

/-! ## Packed rows -/

/-- The terms of all rows, where rows begin and end, and how often each is halved. -/
structure PackedRows where
  offsets : Array Nat
  terms : Array Nat
  halvings : Array Nat

namespace PackedRows

def empty : PackedRows := ⟨#[0], #[], #[]⟩

def push (p : PackedRows) (row : ProductRow) : PackedRows where
  offsets := p.offsets.push (p.terms.size + row.terms.length)
  terms := p.terms ++ row.terms.toArray
  halvings := p.halvings.push row.halvings

def rowAt? (p : PackedRows) (slot : Nat) : Option ProductRow := do
  let next ← fit? wordBound (slot + 1)
  let start ← p.offsets[slot]?
  let stop ← p.offsets[next]?
  let halvings ← p.halvings[slot]?
  if start ≤ stop ∧ stop ≤ p.terms.size then
    some ⟨(p.terms.extract start stop).toList, halvings⟩
  else none

/-- The row of two positions below `len`, in whichever order they are given. -/
def pair? (p : PackedRows) (len i j : Nat) : Option ProductRow :=
  let lo := if i ≤ j then i else j
  let hi := if i ≤ j then j else i
  if hi < len then do
    let next ← fit? wordBound (hi + 1)
    let product ← fit? wordBound (hi * next)
    let slot ← fit? wordBound (product / 2 + lo)
    p.rowAt? slot
  else none

/-- The rows that are packed. -/
structure Packs (p : PackedRows) (rows : List ProductRow) : Prop where
  offsets_size : p.offsets.size = rows.length + 1
  offsets : ∀ k ≤ rows.length,
    p.offsets[k]? = some ((rows.take k).flatMap (·.terms)).length
  terms : p.terms.toList = rows.flatMap (·.terms)
  halvings : p.halvings.toList = rows.map (·.halvings)

theorem packs_empty : empty.Packs [] where
  offsets_size := rfl
  offsets := by
    intro k hk
    obtain rfl := Nat.le_zero.mp hk
    rfl
  terms := rfl
  halvings := rfl

variable {p : PackedRows} {rows : List ProductRow}

theorem Packs.push (h : p.Packs rows) (row : ProductRow) :
    (p.push row).Packs (rows ++ [row]) where
  offsets_size := by simp [PackedRows.push, h.offsets_size]
  offsets := by
    intro k hk
    rw [PackedRows.push, Array.getElem?_push, h.offsets_size]
    split
    -- the offset after the last row is where the new one ends
    · rename_i hlast
      have hsize : p.terms.size = (rows.flatMap (·.terms)).length := by
        rw [← h.terms, Array.length_toList]
      rw [hlast, hsize, List.take_of_length_le (by simp), List.flatMap_append, List.length_append]
      simp
    · have hk : k ≤ rows.length := by
        rw [List.length_append, List.length_singleton] at hk
        omega
      rw [h.offsets k hk, List.take_append_of_le_length hk]
  terms := by simp [PackedRows.push, h.terms]
  halvings := by simp [PackedRows.push, h.halvings]

theorem Packs.foldl_push (h : p.Packs rows) (more : List ProductRow) :
    (more.foldl PackedRows.push p).Packs (rows ++ more) := by
  induction more generalizing p rows with
  | nil => simpa using h
  | cons row more ih => simpa using ih (h.push row)

/-- **What was packed is found again.** -/
theorem Packs.rowAt? (h : p.Packs rows) {slot : Nat} (hword : slot + 1 < wordBound)
    {row : ProductRow} (hrow : rows[slot]? = some row) : p.rowAt? slot = some row := by
  obtain ⟨hlt, hget⟩ := List.getElem?_eq_some_iff.mp hrow
  let before := (rows.take slot).flatMap (·.terms)
  let after := (rows.drop (slot + 1)).flatMap (·.terms)
  have hstart : p.offsets[slot]? = some before.length := h.offsets slot hlt.le
  have hstop : p.offsets[slot + 1]? = some (before.length + row.terms.length) := by
    rw [h.offsets (slot + 1) hlt, List.take_succ_eq_append_getElem hlt, hget,
      List.flatMap_append, List.length_append, List.flatMap_singleton]
  have hhalvings : p.halvings[slot]? = some row.halvings := by
    rw [← Array.getElem?_toList, h.halvings, List.getElem?_map, hrow, Option.map_some]
  have hterms : p.terms.toList = before ++ (row.terms ++ after) := by
    rw [h.terms, ← List.flatMap_cons, ← List.flatMap_append, ← hget, List.getElem_cons_drop,
      List.take_append_drop]
  have hsize : before.length + row.terms.length ≤ p.terms.size := by
    rw [← Array.length_toList, hterms]
    simp
  have hextract : (p.terms.extract before.length (before.length + row.terms.length)).toList
      = row.terms := by
    rw [Array.toList_extract, List.extract_eq_take_drop, hterms, List.drop_left,
      Nat.add_sub_cancel_left, List.take_left]
  rw [PackedRows.rowAt?, fit?_of_lt hword, Option.bind_eq_bind, Option.bind_some, hstart, hstop,
    hhalvings]
  simp only [Option.bind_some, if_pos (And.intro (Nat.le_add_right _ _) hsize), hextract]

/-- A pair is looked up in its slot. -/
theorem pair?_eq_rowAt? {len i j : Nat} (h : max i j < len) (hlen : len < wordBound)
    (hproduct : max i j * (max i j + 1) < wordBound)
    (hslot : slot (min i j) (max i j) < wordBound) :
    p.pair? len i j = p.rowAt? (slot (min i j) (max i j)) := by
  have hlo : (if i ≤ j then i else j) = min i j := rfl
  have hhi : (if i ≤ j then j else i) = max i j := rfl
  have hnext : max i j + 1 < wordBound := Nat.lt_of_le_of_lt h hlen
  rw [slot] at hslot ⊢
  rw [pair?]
  simp only [hlo, hhi, if_pos h, fit?_of_lt hnext, fit?_of_lt hproduct, fit?_of_lt hslot,
    Option.bind_eq_bind, Option.bind_some]

theorem pair?_of_le {len i j : Nat} (h : len ≤ max i j) : p.pair? len i j = none :=
  if_neg (Nat.not_lt.mpr h)

end PackedRows

/-! ## The table of a shape -/

namespace Shape

variable (s : Shape)

def addRow? (p : PackedRows) (ij : Nat × Nat) : Option PackedRows := do
  let b ← s.tupleAtWord? .fault (UInt64.ofNat ij.2)
  let a ← s.tupleAtWord? .fault (UInt64.ofNat ij.1)
  let row ← s.row? a b
  return p.push row

/-- The table with a row for each pair. -/
def table? : Option PackedRows := do
  let pairs ← fit? wordBound (s.size * (s.size + 1))
  let _ ← fit? wordBound (pairs / 2 + 1)
  (pairsBelow s.size).foldlM s.addRow? .empty

variable {s}

theorem tupleAtWord?_ofNat {i : Nat} (h : i < s.size) :
    s.tupleAtWord? .fault (UInt64.ofNat i) = some (s.tupleAt i) := by
  have hword : i < UInt64.size := (h.trans s.size_lt_halfWordBound).trans (by decide)
  have hi : (UInt64.ofNat i).toNat = i := UInt64.toNat_ofNat_of_lt' hword
  rw [s.tupleAtWord?_of_lt .fault _ (by rwa [hi]), hi, GradedBasis.tuples_getElem?_of_lt h]

theorem addRow?_eq (p : PackedRows) {ij : Nat × Nat} (hi : ij.1 < s.size) (hj : ij.2 < s.size) :
    s.addRow? p ij = some (p.push (s.product ij.1 ij.2)) := by
  have ht := GradedBasis.tuples_getElem?_of_lt hi
  have hu := GradedBasis.tuples_getElem?_of_lt hj
  have hrow :=
    row?_eq (GradedBasis.mem_graded_of_getElem? ht) (GradedBasis.mem_graded_of_getElem? hu)
  rw [addRow?, tupleAtWord?_ofNat hj, tupleAtWord?_ofNat hi, product_eq ht hu]
  simp only [Option.bind_eq_bind, Option.bind_some, hrow]
  rfl

theorem foldlM_addRow? (l : List (Nat × Nat)) (hl : ∀ ij ∈ l, ij.1 < s.size ∧ ij.2 < s.size)
    (p : PackedRows) :
    l.foldlM s.addRow? p
      = some ((l.map fun ij => s.product ij.1 ij.2).foldl PackedRows.push p) := by
  induction l generalizing p with
  | nil => rfl
  | cons ij l ih =>
      obtain ⟨hij, hl⟩ := List.forall_mem_cons.mp hl
      rw [List.foldlM_cons, addRow?_eq p hij.1 hij.2, Option.bind_eq_bind, Option.bind_some,
        ih hl, List.map_cons, List.foldl_cons]

theorem table?_eq (s : Shape) :
    s.table? = some (s.rows.foldl PackedRows.push PackedRows.empty) := by
  have hslots := s.slot_size_lt
  have hpairs : s.size * (s.size + 1) / 2 + 1 < wordBound := by
    rw [slot] at hslots
    omega
  rw [table?, fit?_of_lt s.size_mul_succ_lt, Option.bind_eq_bind, Option.bind_some,
    fit?_of_lt hpairs, Option.bind_some, foldlM_addRow? _ fun _ => mem_pairsBelow]
  rfl

/-- **The table is built and answers for every pair**, and for nothing else. -/
theorem table?_pair (s : Shape) : ∃ p, s.table? = some p ∧ p.terms.size = s.termCount ∧
    ∀ i j, p.pair? s.size i j = if max i j < s.size then some (s.product i j) else none := by
  have hpacks := PackedRows.packs_empty.foldl_push s.rows
  refine ⟨_, s.table?_eq, ?_, fun i j => ?_⟩
  · rw [← Array.length_toList, hpacks.terms, List.nil_append, termCount_eq_length]
  split
  · rename_i h
    have hslot : slot (min i j) (max i j) + 1 < wordBound := by
      have := s.slot_lt (Nat.le_trans (Nat.min_le_left i j) (Nat.le_max_left i j)) h
      have := s.slot_size_lt
      omega
    rw [PackedRows.pair?_eq_rowAt? h (s.size_lt_halfWordBound.trans (by decide))
      (s.mul_succ_lt h) (Nat.lt_of_succ_lt hslot)]
    exact hpacks.rowAt? hslot (getElem?_rows h)
  · exact PackedRows.pair?_of_le (Nat.not_lt.mp ‹_›)

/-! ## The decomposition of all pairs -/

/-- **The product table decomposes every pair.** Two positions are refused exactly when the
larger one is beyond the shape. Otherwise their row is the decomposition of the product of
their basis functions, whichever of them comes first, and the terms of the shape are those
of all rows with `i ≤ j`. All this is so of the rows that the masks fill and that are found
by the offsets of their slots. -/
theorem pair_decomposition (s : Shape) :
    (∀ i j f, s.pair i j = .error f ↔ s.size ≤ max i j ∧ f = ⟨max i j⟩) ∧
    (∀ i j, max i j < s.size → ∃ t u, s.tuples[i]? = some t ∧ s.tuples[j]? = some u ∧
      s.pair i j = .ok (s.product i j) ∧ s.Decomposes t u (s.product i j)) ∧
    (∀ i j, s.pair i j = s.pair j i) ∧
    s.termCount = ∑ j ∈ Finset.range s.size, ∑ i ∈ Finset.range (j + 1),
      (s.product i j).terms.length ∧
    ∃ p, s.table? = some p ∧ p.terms.size = s.termCount ∧
      ∀ i j, p.pair? s.size i j = (s.pair i j).toOption := by
  refine ⟨fun _ _ _ => pair_eq_error_iff, ?_, s.pair_comm, s.termCount_eq_sum, ?_⟩
  · intro i j hij
    have hi := GradedBasis.tuples_getElem?_of_lt (lt_of_le_of_lt (Nat.le_max_left i j) hij)
    have hj := GradedBasis.tuples_getElem?_of_lt (lt_of_le_of_lt (Nat.le_max_right i j) hij)
    refine ⟨_, _, hi, hj, pair_eq_ok hij, ?_⟩
    rw [product_eq hi hj]
    exact decomposes_ofTuples (s.mem_of_getElem? hi).1 (s.mem_of_getElem? hj).1
  · obtain ⟨p, hp, hterms, hpair⟩ := s.table?_pair
    refine ⟨p, hp, hterms, fun i j => ?_⟩
    rw [hpair, pair]
    split <;> rfl

/-- In two variables up to degree two the square of `xy` has four branches in the order of the
masks. The first one, of degree four, is dropped. -/
theorem pair_decomposition_square : ∃ s : Shape, max 4 4 < s.size ∧
    branches [1, 1] [1, 1] = [[2, 2], [0, 2], [2, 0], [0, 0]] ∧
    s.pair 4 4 = .ok ⟨[5, 3, 0], 2⟩ ∧ s.Decomposes [1, 1] [1, 1] ⟨[5, 3, 0], 2⟩ ∧
    ∃ p, s.table? = some p ∧ p.pair? s.size 4 4 = some ⟨[5, 3, 0], 2⟩ := by
  let s := Shape.ofAdmissible (⟨by decide, by decide, by decide⟩ : Admissible 2 2)
  have hsize : max 4 4 < s.size := by
    rw [GradedBasis.size_eq]
    decide
  obtain ⟨-, hrows, -, -, p, hp, -, htable⟩ := s.pair_decomposition
  obtain ⟨t, u, ht, hu, hpair, hrow⟩ := hrows 4 4 hsize
  have hxy : s.tuples[4]? = some [1, 1] := by
    rw [GradedBasis.tuples_getElem?]
    rfl
  obtain rfl : [1, 1] = t := Option.some.inj (hxy.symm.trans ht)
  obtain rfl : [1, 1] = u := Option.some.inj (hxy.symm.trans hu)
  have hproduct : s.product 4 4 = ⟨[5, 3, 0], 2⟩ := (product_eq hxy hxy).trans (by decide)
  rw [hproduct] at hpair hrow
  refine ⟨s, hsize, by decide, hpair, hrow, p, hp, ?_⟩
  rw [htable, hpair]
  rfl

end Shape

end TensorChebyshev
