import TensorChebyshev.Proofs.Index.Tables

/-!
# The basis numbers the tuples

A basis is a bijection between positions and exponent tuples. `Numbering`
collects what it promises: how many positions there are, which tuple stands
where and in which order, and that rank, degree and block of degree agree
with the listing. Every basis keeps these promises, a basis exists exactly for
the numbers that are small enough, and the tables made for it answer as it does.
-/

namespace TensorChebyshev.GradedBasis

variable (b : GradedBasis)

/-! ## The promises -/

/-- What a basis promises about its positions. -/
structure Numbering (b : GradedBasis) : Prop where
  size_eq : b.size = (b.nvar + b.degree).choose b.nvar
  /-- Every tuple of the right length and sum stands at exactly one position. -/
  covers : ∀ t : Tuple, t.length = b.nvar → t.sum ≤ b.degree →
    ∃! i : Nat, b.tuples[i]? = some t
  within : ∀ (i : Nat) (t : Tuple), b.tuples[i]? = some t →
    t.length = b.nvar ∧ t.sum ≤ b.degree
  increasing : ∀ (i j : Nat) (t u : Tuple), b.tuples[i]? = some t →
    b.tuples[j]? = some u → i < j → t.Before u
  /-- The cells of a position hold its tuple, whatever the rule for overflow. -/
  cells : ∀ (o : Overflow) (i : UInt64), i.toNat < b.size →
    b.tupleAtWord? o i = b.tuples[i.toNat]?
  rank : ∀ (t : Tuple) (i : Nat), b.rank? t = some i ↔ b.tuples[i]? = some t
  unranked : ∀ t : Tuple, t.length ≠ b.nvar ∨ b.degree < t.sum → b.rank? t = none
  degreeAt : ∀ i : Nat, b.degreeAt? i = b.tuples[i]?.map List.sum
  block : ∀ d i : Nat,
    ((b.block d).1 ≤ i ∧ i < (b.block d).2) ↔ b.degreeAt? i = some d
  /-- Beyond the truncation degree blocks are empty. -/
  block_beyond : ∀ d : Nat, b.degree < d → (b.block d).1 = (b.block d).2

theorem numbering : b.Numbering where
  size_eq := by rw [size_eq_atMost, atMost_eq_choose]
  covers := by
    intro t hlen hsum
    rw [← totalDegree_eq_sum] at hsum
    refine ⟨TensorChebyshev.rank t, ?_, fun i hi => ?_⟩
    · show b.tuples[TensorChebyshev.rank t]? = some t
      rw [tuples_getElem?, ← hlen]
      exact getElem?_graded_rank hsum
    · replace hi : b.tuples[i]? = some t := hi
      rw [tuples_getElem?] at hi
      exact (rank_of_getElem? hi).symm
  within := by
    intro i t ht
    rw [← totalDegree_eq_sum]
    exact b.mem_of_getElem? ht
  increasing := by
    intro i j t u ht hu hij
    rw [tuples_getElem?] at ht hu
    obtain ⟨hi, rfl⟩ := List.getElem?_eq_some_iff.mp ht
    obtain ⟨hj, rfl⟩ := List.getElem?_eq_some_iff.mp hu
    exact List.pairwise_iff_getElem.mp (pairwise_graded _ _) i j hi hj hij
  cells := fun o i h => b.tupleAtWord?_of_lt o i h
  rank := fun _ _ => b.rank?_eq_some_iff
  unranked := by
    intro t h
    rw [← totalDegree_eq_sum] at h
    exact rank?_eq_none_iff.mpr h
  degreeAt := fun i => by
    rw [degreeAt?]
    exact congrArg (Option.map · _) (funext totalDegree_eq_sum)
  block := fun _ _ => b.mem_block_iff
  block_beyond := fun d h => by rw [GradedBasis.block, if_neg (Nat.not_le.mpr h)]

/-- **A basis is the graded bijection.** For two words, the first reason against
a basis is reported: no variable, then a degree that is too high, then too many
tuples. Without a reason there is a basis for these numbers, and it numbers their
tuples. -/
theorem build_numbering (nvar degree : UInt64) :
    match GradedBasis.build nvar.toNat degree.toNat with
    | .ok b =>
      0 < nvar.toNat ∧ degree.toNat ≤ 100 ∧
        (nvar.toNat + degree.toNat).choose nvar.toNat < 2 ^ 32 ∧
        b.nvar = nvar.toNat ∧ b.degree = degree.toNat ∧ b.Numbering ∧
        ∃ p, BasisTables.make? degree.toNat nvar.toNat = some p ∧ p.Holds b
    | .error .noVariables => nvar.toNat = 0
    | .error (.degreeTooHigh d) =>
      0 < nvar.toNat ∧ 100 < degree.toNat ∧ d = degree.toNat
    | .error (.tooManyFunctions n d) =>
      0 < nvar.toNat ∧ degree.toNat ≤ 100 ∧
        2 ^ 32 ≤ (nvar.toNat + degree.toNat).choose nvar.toNat ∧
        n = nvar.toNat ∧ d = degree.toNat := by
  have hn : nvar.toNat < wordBound := nvar.toNat_lt
  have hs : degree.toNat < wordBound := degree.toNat_lt
  rcases Nat.eq_zero_or_pos nvar.toNat with hzero | hpos
  · rw [build_of_zero hzero]
    exact hzero
  rcases Nat.lt_or_ge maxDegree degree.toNat with hhigh | hdeg
  · rw [build_of_high hpos hhigh]
    exact ⟨hpos, hhigh, rfl⟩
  rcases Nat.lt_or_ge ((nvar.toNat + degree.toNat).choose nvar.toNat) (2 ^ 32) with
    hsmall | hlarge
  · have hadmissible := (admissible_iff hn hs).mpr ⟨hpos, hdeg, hsmall⟩
    rw [build_of_admissible hadmissible]
    exact ⟨hpos, hdeg, hsmall, rfl, rfl, numbering _, BasisTables.make?_holds hadmissible⟩
  · rw [build_of_large hn hpos hdeg hlarge]
    exact ⟨hpos, hdeg, hlarge, rfl, rfl⟩

end TensorChebyshev.GradedBasis
