import Mathlib
import TensorChebyshev.Proofs.Words.Axes
import TensorChebyshev.Proofs.Words.Table

/-!
# Numbers fit their widths

For an admissible shape no number of the table of products and none of the grid
leaves its width. The bounds are stated for each number, and together with them
that the computations in words, which stop where a number does not fit or an entry
is not there, come to their end.
-/

namespace TensorChebyshev

namespace Shape

/-- What is kept and computed for the pairs of a shape fits. -/
structure TableFits (s : Shape) : Prop where
  cells : s.size * s.nvar < 2 ^ 64
  pairs : s.size * (s.size + 1) < 2 ^ 64
  slots : ∀ lo hi, lo ≤ hi → hi < s.size →
    hi * (hi + 1) < 2 ^ 64 ∧ hi * (hi + 1) / 2 + lo < 2 ^ 64
  positions : ∀ i < s.size, i < 2 ^ 32
  exponents : ∀ (i : Nat) (t : Tuple), s.tuples[i]? = some t → ∀ e ∈ t, e < 2 ^ 16
  /-- What a basis function leaves of the degree is a difference without a borrow. -/
  slack : ∀ i < s.size, ∃ d ≤ s.degree, s.degreeAt? i = some d ∧
    s.slackAt? i = some (s.degree - d)
  splits : ∀ (i j : Nat) (t u : Tuple), s.tuples[i]? = some t → s.tuples[j]? = some u →
    ((List.range s.nvar).filter fun v => t.getD v 0 ≠ 0 ∧ u.getD v 0 ≠ 0).length < 64
  halvings : ∀ i j, max i j < s.size → (s.product i j).halvings < 2 ^ 8
  sums : ∀ (i j : Nat) (t u : Tuple), s.tuples[i]? = some t → s.tuples[j]? = some u →
    ∀ v < s.nvar, t.getD v 0 + u.getD v 0 < 2 ^ 16
  /-- The table is built in words, and in words the row of each pair is found. -/
  table : ∃ p, s.table? = some p ∧ p.terms.size = s.termCount ∧
    ∀ i j, p.pair? s.size i j = if max i j < s.size then some (s.product i j) else none

/-- The points of the grid of a shape. -/
abbrev gridCount (s : Shape) : Nat := gridSize (gridPoints s.degree) s.nvar

/-- Offsets, strides and accesses stay within the grid of a shape. -/
structure GridFits (s : Shape) : Prop where
  count : s.gridCount = (2 * s.degree + 1) ^ s.nvar ∧ s.gridCount ≤ 2 ^ 24
  strides : ∀ v ≤ s.nvar, gridPoints s.degree ^ v ≤ s.gridCount
  /-- The offsets are summed with a running stride, where no number exceeds the size. -/
  offsets : s.tuples.toList.mapM (offset? s.gridCount (gridPoints s.degree)) = some s.offsets ∧
    ∀ o ∈ s.offsets, o < s.gridCount
  accesses : ∀ v < s.nvar,
    ∀ base ∈ lineBases s.gridCount (gridPoints s.degree) (gridPoints s.degree ^ v),
    ∀ j < gridPoints s.degree, base + j * gridPoints s.degree ^ v < s.gridCount
  /-- The axes are transformed line by line in place, where no stride exceeds the size and
  every entry is there. -/
  axes : ∀ (T : Type) (f : Vector T (gridPoints s.degree) → Vector T (gridPoints s.degree))
    (data : s.GridData T),
    axes? f s.gridCount s.nvar 1 data.toArray = some (alongAxes f s.nvar data).toArray

variable (s : Shape)

theorem tableFits : s.TableFits where
  cells := wordBound_eq ▸ s.cells_lt_wordBound
  pairs := wordBound_eq ▸ s.size_mul_succ_lt
  slots := by
    intro lo hi hle h
    have hslot := s.slot_lt hle h
    have hsize := s.slot_size_lt
    rw [← wordBound_eq]
    refine ⟨s.mul_succ_lt h, ?_⟩
    show slot lo hi < wordBound
    omega
  positions := fun i h => h.trans (halfWordBound_eq ▸ s.size_lt_halfWordBound)
  exponents := by
    intro i t ht e he
    have hdeg := s.totalDegree_le_hundred (GradedBasis.mem_graded_of_getElem? ht)
    have := le_totalDegree he
    omega
  slack := by
    intro i h
    have ht := GradedBasis.tuples_getElem?_of_lt h
    have hdegree : s.degreeAt? i = some (totalDegree (s.tupleAt i)) := by
      rw [GradedBasis.degreeAt?, ht, Option.map_some]
    refine ⟨_, (GradedBasis.tupleAt_mem h).2, hdegree, ?_⟩
    rw [GradedBasis.slackAt?, hdegree, Option.map_some]
  splits := by
    intro i j t u ht hu
    obtain ⟨hlen, hlt⟩ := length_splitVariables (GradedBasis.mem_graded_of_getElem? ht)
      (GradedBasis.mem_graded_of_getElem? hu)
    show (splitVariables s.nvar t u).length < 64
    rw [hlen]
    exact hlt.trans (by decide)
  halvings := by
    intro i j h
    obtain ⟨hi, hj⟩ := Nat.max_lt.mp h
    have ht := GradedBasis.tuples_getElem?_of_lt hi
    have hu := GradedBasis.tuples_getElem?_of_lt hj
    rw [product_eq ht hu]
    show splits (s.tupleAt i) (s.tupleAt j) < 2 ^ 8
    exact (s.splits_lt (GradedBasis.mem_graded_of_getElem? ht) _).trans (by decide)
  sums := by
    intro i j t u ht hu v _
    have := s.totalDegree_le_hundred (GradedBasis.mem_graded_of_getElem? ht)
    have := s.totalDegree_le_hundred (GradedBasis.mem_graded_of_getElem? hu)
    have := getD_le_totalDegree t v
    have := getD_le_totalDegree u v
    omega
  table := s.table?_pair

end Shape

/-! ## The grid -/

instance (d : Nat) : NeZero (gridPoints d) := ⟨Nat.succ_ne_zero _⟩

namespace Shape

variable {s : Shape}

theorem mapM_offset? (s : Shape) :
    s.tuples.toList.mapM (offset? s.gridCount (gridPoints s.degree)) = some s.offsets := by
  refine mapM_eq_some_map fun t ht => ?_
  rw [GradedBasis.tuples_eq, List.toList_toArray] at ht
  obtain ⟨hlen, hdeg⟩ := mem_graded.mp ht
  exact offset?_eq (NeZero.pos _) hlen (Tuple.Fits.of_totalDegree (by omega))

/-- The number of points is a multiple of the block of every axis. -/
theorem gridCount_eq_mul {v : Nat} (hv : v < s.nvar) :
    s.gridCount = gridPoints s.degree ^ v * gridPoints s.degree
      * gridPoints s.degree ^ (s.nvar - (v + 1)) := by
  rw [gridCount, gridSize_eq_pow, ← pow_succ, ← pow_add]
  congr 1
  omega

theorem gridFits (h : s.HasGrid) : s.GridFits where
  count := ⟨gridSize_eq_pow .., h⟩
  strides := by
    intro v hv
    rw [gridCount, gridSize_eq_pow]
    exact Nat.pow_le_pow_right (NeZero.pos _) hv
  offsets := ⟨s.mapM_offset?, fun _ => lt_gridSize_of_mem_offsets⟩
  accesses := by
    intro v hv base hbase j hj
    rw [gridCount_eq_mul hv] at hbase ⊢
    exact lt_of_onLine (Nat.pow_pos (NeZero.pos _)) hbase ⟨j, hj, rfl⟩
  axes := fun _ _ data => axes?_toArray s.nvar data

/-- **No arithmetic on an admissible shape leaves its width.** For its table, and where it has
a grid for that, every number fits and the computations in words come to their end. -/
theorem arithmetic_fits (s : Shape) : s.TableFits ∧ (s.HasGrid → s.GridFits) :=
  ⟨s.tableFits, gridFits⟩

/-- A shape with a grid: two variables up to degree one, on nine points. -/
theorem arithmetic_fits_square :
    ∃ s : Shape, s.size = 3 ∧ s.HasGrid ∧ s.TableFits ∧ s.GridFits := by
  let s := Shape.ofAdmissible (⟨by decide, by decide, by decide⟩ : Admissible 2 1)
  have hgrid : s.HasGrid := by
    show gridSize 3 2 ≤ maxGridPoints
    decide
  obtain ⟨htable, hfits⟩ := s.arithmetic_fits
  exact ⟨s, s.size_eq, hgrid, htable, hfits hgrid⟩

end Shape

end TensorChebyshev
