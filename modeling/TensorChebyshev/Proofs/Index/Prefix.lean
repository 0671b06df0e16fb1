import TensorChebyshev.Proofs.Index.Positions

/-!
# Extensions by a last exponent

In the graded order the extensions of one tuple stand in the order of their
last exponents, though other tuples stand between them, and no exponent up to
what is left of the degree is missing.
-/

namespace TensorChebyshev

theorem totalDegree_concat (q : Tuple) (e : Nat) :
    totalDegree (q ++ [e]) = totalDegree q + e := by
  simp [totalDegree]

theorem mem_graded_concat {n s e : Nat} {q : Tuple} :
    q ++ [e] ∈ graded (n + 1) s ↔ q ∈ graded n s ∧ e ≤ s - totalDegree q := by
  rw [mem_graded, mem_graded, totalDegree_concat, List.length_append, List.length_singleton]
  omega

/-- A tuple of at least one exponent extends one of the smaller listing. -/
theorem exists_eq_concat {n s : Nat} {t : Tuple} (h : t ∈ graded (n + 1) s) :
    ∃ q e, t = q ++ [e] ∧ q ∈ graded n s ∧ e ≤ s - totalDegree q := by
  have hne : t ≠ [] := by
    rintro rfl
    simpa using (mem_graded.mp h).1
  have hlast := List.dropLast_concat_getLast hne
  rw [← hlast] at h
  exact ⟨t.dropLast, t.getLast hne, hlast.symm, mem_graded_concat.mp h⟩

theorem dropLast_mem_graded {n s : Nat} {t : Tuple} (h : t ∈ graded (n + 1) s) :
    t.dropLast ∈ graded n s := by
  obtain ⟨q, e, rfl, hq, _⟩ := exists_eq_concat h
  rw [List.dropLast_concat]
  exact hq

/-- **Groups are dense and sorted**: the tuples with prefix `q` are `q` with the
last exponents `0, 1, …` up to what `q` leaves of the degree. -/
theorem filter_dropLast_graded {n s : Nat} {q : Tuple} (hq : q ∈ graded n s) :
    (graded (n + 1) s).filter (fun t => t.dropLast == q)
      = (List.range (s - totalDegree q + 1)).map fun e => q ++ [e] := by
  -- both lists are sorted, so they agree as soon as they have the same members
  refine List.Pairwise.eq_of_mem_iff ((pairwise_graded (n + 1) s).filter _) ?_ fun t => ?_
  · rw [List.pairwise_map]
    refine List.pairwise_lt_range.imp fun hlt => .inl ?_
    rw [totalDegree_concat, totalDegree_concat]
    omega
  · simp only [List.mem_filter, beq_iff_eq, List.mem_map, List.mem_range, Nat.lt_succ_iff]
    constructor
    · rintro ⟨ht, rfl⟩
      obtain ⟨q, e, rfl, _, he⟩ := exists_eq_concat ht
      rw [List.dropLast_concat]
      exact ⟨e, he, rfl⟩
    · rintro ⟨e, he, rfl⟩
      exact ⟨mem_graded_concat.mpr ⟨hq, he⟩, List.dropLast_concat⟩

namespace GradedBasis

theorem parent?_eq {b : GradedBasis} {n i : Nat} {t : Tuple} (hn : b.nvar = n + 1)
    (hpos : 0 < n) (ht : b.tuples[i]? = some t) :
    b.parent? i = some (TensorChebyshev.rank t.dropLast) := by
  have hmem : t ∈ graded (n + 1) b.degree := by
    rw [← hn]
    exact mem_graded.mpr (b.mem_of_getElem? ht)
  rw [parent?, if_pos (by omega), ht, Option.bind_some, hn, Nat.add_sub_cancel,
    TensorChebyshev.rank?, if_pos (mem_graded.mp (dropLast_mem_graded hmem))]

end GradedBasis

end TensorChebyshev
