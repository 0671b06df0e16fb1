import TensorChebyshev.Proofs.Index.Cells

/-!
# Positions of a basis

A basis exists exactly for the numbers that are small enough, and the first
reason against it is reported. In a basis rank, degree and block of a degree say
where tuples stand in the listing.
-/

namespace TensorChebyshev

/-! ## Existence -/

theorem halfWordBound_eq : halfWordBound = 2 ^ 32 := by decide

theorem GradedBasis.build_of_admissible {nvar degree : Nat} (h : Admissible nvar degree) :
    GradedBasis.build nvar degree = .ok (GradedBasis.ofAdmissible h) := by
  have hd : ¬ maxDegree < degree := Nat.not_lt.mpr h.degree_le
  rw [build, dif_neg h.nvar_pos.ne', dif_neg hd, dif_pos h.numberable]

/-- A basis has the numbers that it was asked for. -/
theorem GradedBasis.numbers_of_build {nvar degree : Nat} {b : GradedBasis}
    (h : GradedBasis.build nvar degree = .ok b) : b.nvar = nvar ∧ b.degree = degree := by
  rw [build] at h
  split at h
  · cases h
  split at h
  · cases h
  split at h
  · cases h
    exact ⟨rfl, rfl⟩
  · cases h

/-- For numbers that fit a word, admission is a bound on the size. -/
theorem admissible_iff {n s : Nat} (hn : n < wordBound) (hs : s < wordBound) :
    Admissible n s ↔ 0 < n ∧ s ≤ maxDegree ∧ (n + s).choose n < 2 ^ 32 := by
  rw [← atMost_eq_choose, ← halfWordBound_eq, ← numberable_iff hn hs]
  exact ⟨fun h => ⟨h.nvar_pos, h.degree_le, h.numberable⟩, fun h => ⟨h.1, h.2.1, h.2.2⟩⟩

namespace GradedBasis

theorem build_of_zero {nvar degree : Nat} (h : nvar = 0) :
    build nvar degree = .error .noVariables := dif_pos h

theorem build_of_high {nvar degree : Nat} (hv : 0 < nvar) (hd : maxDegree < degree) :
    build nvar degree = .error (.degreeTooHigh degree) := by
  rw [build, dif_neg hv.ne', dif_pos hd]

theorem build_of_large {nvar degree : Nat} (hw : nvar < wordBound) (hv : 0 < nvar)
    (hd : degree ≤ maxDegree) (hc : 2 ^ 32 ≤ (nvar + degree).choose nvar) :
    build nvar degree = .error (.tooManyFunctions nvar degree) := by
  have hdw : degree < wordBound := Nat.lt_of_le_of_lt hd (by decide)
  have hn : ¬ numberable nvar degree = true := by
    rw [numberable_iff hw hdw, atMost_eq_choose, halfWordBound_eq]
    exact Nat.not_lt.mpr hc
  rw [build, dif_neg hv.ne', dif_neg (Nat.not_lt.mpr hd), dif_neg hn]

end GradedBasis

/-- Fewer variables and a smaller degree are admissible too. -/
theorem Admissible.mono {n m s r : Nat} (h : Admissible n s) (hm : 0 < m) (hmn : m ≤ n)
    (hr : r ≤ s) : Admissible m r := by
  have hsum := lt_wordBound_of_numberable h.numberable
  refine ⟨hm, Nat.le_trans hr h.degree_le, (numberable_iff (by omega) (by omega)).mpr ?_⟩
  calc atMost m r ≤ atMost n r := atMost_le_of_le_left hmn r
    _ ≤ atMost n s := atMost_le_of_le_right n hr
    _ < halfWordBound := (atMost_of_numberable h.numberable).1

namespace GradedBasis

/-! ## Positions -/

variable (b : GradedBasis)

theorem tuples_getElem? (i : Nat) : b.tuples[i]? = (graded b.nvar b.degree)[i]? := by
  rw [tuples_eq, List.getElem?_toArray]

theorem mem_of_getElem? {i : Nat} {t : Tuple} (h : b.tuples[i]? = some t) :
    t.length = b.nvar ∧ totalDegree t ≤ b.degree := by
  rw [tuples_getElem?] at h
  exact mem_graded.mp (List.mem_of_getElem? h)

theorem rank?_eq_some_iff {t : Tuple} {i : Nat} :
    b.rank? t = some i ↔ b.tuples[i]? = some t := by
  rw [rank?, tuples_getElem?, TensorChebyshev.rank?_eq_some_iff]

theorem degreeAt?_eq_some_iff {i d : Nat} :
    b.degreeAt? i = some d ↔ ∃ t, b.tuples[i]? = some t ∧ totalDegree t = d :=
  Option.map_eq_some_iff

/-- A block holds the positions of its degree and no others. -/
theorem mem_block_iff {d i : Nat} :
    ((b.block d).1 ≤ i ∧ i < (b.block d).2) ↔ b.degreeAt? i = some d := by
  rw [degreeAt?_eq_some_iff]
  by_cases hd : d ≤ b.degree
  · rw [block, if_pos hd, ← below_add_length]
    constructor
    · rintro ⟨hlo, hhi⟩
      obtain ⟨k, rfl⟩ := Nat.exists_eq_add_of_le hlo
      have hk : k < (tuplesOfDegree b.nvar d).length := Nat.lt_of_add_lt_add_left hhi
      refine ⟨(tuplesOfDegree b.nvar d)[k], ?_, ?_⟩
      · rw [tuples_getElem?, getElem?_graded hd hk, List.getElem?_eq_getElem hk]
      · exact (mem_tuplesOfDegree.mp (List.getElem_mem hk)).2
    · rintro ⟨t, ht, rfl⟩
      have hmem := mem_tuplesOfDegree.mpr ⟨(b.mem_of_getElem? ht).1, rfl⟩
      obtain ⟨k, hk, hget⟩ := List.getElem_of_mem hmem
      have hplace : (graded b.nvar b.degree)[below b.nvar (totalDegree t) + k]? = some t := by
        rw [getElem?_graded hd hk, List.getElem?_eq_getElem hk, hget]
      -- a tuple stands in one place only
      have hi : i = below b.nvar (totalDegree t) + k := by
        rw [tuples_getElem?] at ht
        rw [← rank_of_getElem? ht, rank_of_getElem? hplace]
      omega
  · rw [block, if_neg hd]
    constructor
    · rintro ⟨hlo, hhi⟩
      exact absurd hhi (Nat.not_lt.mpr hlo)
    · rintro ⟨t, ht, rfl⟩
      exact absurd (b.mem_of_getElem? ht).2 hd

end GradedBasis

end TensorChebyshev
