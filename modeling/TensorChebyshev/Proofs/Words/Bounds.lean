import Mathlib
import TensorChebyshev.Proofs.Index.Positions
import TensorChebyshev.Proofs.Product.Branches
import TensorChebyshev.Proofs.Product.Grid
import TensorChebyshev.Proofs.Product.Rows

/-!
# Numbers of an admissible shape

A shape is admitted for its degree and the number of its basis functions alone.
Both bounds together leave room for few positive exponents in a pair: where two
tuples agree in being positive at `m` places, there are at least as many tuples
as choices of `m` out of `2 m`, and with `m = 18` that is more than half a word
numbers.
-/

namespace TensorChebyshev

/-! ## Variables that split -/

theorem splits_le_length (t u : Tuple) : splits t u ≤ t.length := by
  induction t generalizing u with
  | nil => exact Nat.le_refl 0
  | cons x t ih =>
      cases u with
      | nil => exact Nat.zero_le _
      | cons y u =>
          have := ih u
          rw [splits, List.length_cons]
          split <;> omega

theorem splits_le_totalDegree (t u : Tuple) : splits t u ≤ totalDegree t := by
  induction t generalizing u with
  | nil => exact Nat.le_refl 0
  | cons x t ih =>
      cases u with
      | nil => exact Nat.zero_le _
      | cons y u =>
          have := ih u
          rw [splits, totalDegree]
          split <;> omega

/-- Variables and degree cannot both be large. -/
theorem lt_eighteen_of_numberable {n d k : Nat} (h : numberable n d = true) (hn : k ≤ n)
    (hd : k ≤ d) : k < 18 := by
  by_contra hk
  have hk : 18 ≤ k := Nat.not_lt.mp hk
  have hleast : atMost 18 18 ≤ atMost n d :=
    Nat.le_trans (atMost_le_of_le_left (Nat.le_trans hk hn) 18)
      (atMost_le_of_le_right n (Nat.le_trans hk hd))
  have hlarge : halfWordBound ≤ atMost 18 18 := by decide
  have := (atMost_of_numberable h).1
  omega

theorem getD_le_totalDegree (t : Tuple) (v : Nat) : t.getD v 0 ≤ totalDegree t := by
  rw [List.getD_eq_getElem?_getD]
  cases h : t[v]? with
  | none => exact Nat.zero_le _
  | some e => exact le_totalDegree (List.mem_of_getElem? h)

namespace GradedBasis

variable (b : GradedBasis)

theorem mem_graded_of_getElem? {b : GradedBasis} {i : Nat} {t : Tuple}
    (h : b.tuples[i]? = some t) : t ∈ graded b.nvar b.degree :=
  mem_graded.mpr (b.mem_of_getElem? h)

theorem splits_lt {t : Tuple} (ht : t ∈ graded b.nvar b.degree) (u : Tuple) :
    splits t u < 18 := by
  obtain ⟨hlen, hdeg⟩ := mem_graded.mp ht
  exact lt_eighteen_of_numberable b.admissible.numberable
    ((splits_le_length t u).trans hlen.le) ((splits_le_totalDegree t u).trans hdeg)

theorem totalDegree_le_hundred {t : Tuple} (ht : t ∈ graded b.nvar b.degree) :
    totalDegree t ≤ 100 :=
  (mem_graded.mp ht).2.trans b.admissible.degree_le

/-! ## Pairs of positions -/

/-- The number of ordered pairs, before it is halved. -/
theorem size_mul_succ_lt : b.size * (b.size + 1) < wordBound := by
  have hle : b.size ≤ halfWordBound - 1 := Nat.le_sub_one_of_lt b.size_lt_halfWordBound
  exact Nat.lt_of_le_of_lt (Nat.mul_le_mul hle (Nat.succ_le_succ hle)) (by decide)

theorem mul_succ_lt {hi : Nat} (h : hi < b.size) : hi * (hi + 1) < wordBound :=
  Nat.lt_of_le_of_lt (Nat.mul_le_mul h.le (Nat.succ_le_succ h.le)) b.size_mul_succ_lt

/-- The slot of a pair is one of as many as there are pairs. -/
theorem slot_lt {lo hi : Nat} (hle : lo ≤ hi) (h : hi < b.size) :
    slot lo hi < slot 0 b.size := by
  have hnext : slot lo hi < slot 0 (hi + 1) := by
    rw [slot_succ, slot_eq_add]
    omega
  have hmono : slot 0 (hi + 1) ≤ slot 0 b.size := by
    have hmul : (hi + 1) * (hi + 1 + 1) ≤ b.size * (b.size + 1) :=
      Nat.mul_le_mul h (Nat.succ_le_succ h)
    exact Nat.add_le_add_right (Nat.div_le_div_right hmul) 0
  exact Nat.lt_of_lt_of_le hnext hmono

theorem slot_size_lt : slot 0 b.size < wordBound - 1 := by
  have := b.size_mul_succ_lt
  have hword : 2 < wordBound := by decide
  rw [slot]
  omega

end GradedBasis

end TensorChebyshev
