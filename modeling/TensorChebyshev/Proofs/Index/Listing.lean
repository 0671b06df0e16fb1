import Mathlib.Data.List.Sort
import TensorChebyshev.Proofs.Index.Count

/-!
# The graded listing

The tuples of one more exponent with sum `d` are the tuples with a sum of at
most `d`, each with what is left of `d` in front. From this one equation come
the members of the listing, its length, its order, and the place that `rank`
computes for a tuple without the list.
-/

namespace TensorChebyshev

/-! ## Total degrees -/

theorem totalDegree_eq_sum (t : Tuple) : totalDegree t = t.sum := by
  induction t with
  | nil => rfl
  | cons e t ih => simp [totalDegree, ih]

@[simp] theorem totalDegree_append (t u : Tuple) :
    totalDegree (t ++ u) = totalDegree t + totalDegree u := by
  simp [totalDegree_eq_sum]

/-! ## Members -/

theorem descending_eq_map (d : Nat) :
    descending d = (List.range (d + 1)).map (d - ·) := by
  induction d with
  | zero => rfl
  | succ d ih =>
      rw [descending, ih, List.range_succ_eq_map (n := d + 1), List.map_cons, List.map_map]
      simp [Function.comp_def]

theorem mem_tuplesOfDegree {n d : Nat} {t : Tuple} :
    t ∈ tuplesOfDegree n d ↔ t.length = n ∧ totalDegree t = d := by
  induction n generalizing d t with
  | zero =>
      cases d with
      | zero => cases t <;> simp [tuplesOfDegree, totalDegree]
      | succ d => cases t <;> simp [tuplesOfDegree, totalDegree]
  | succ n ih =>
      simp only [tuplesOfDegree, descending_eq_map, List.mem_flatMap, List.mem_map, ih,
        List.mem_range]
      constructor
      · rintro ⟨_, ⟨k, hk, rfl⟩, u, ⟨hlen, hsum⟩, rfl⟩
        refine ⟨by simp [hlen], ?_⟩
        rw [totalDegree, hsum]
        omega
      · rintro ⟨hlen, hsum⟩
        obtain ⟨e, u, rfl⟩ := List.exists_cons_of_length_eq_add_one hlen
        rw [totalDegree] at hsum
        exact ⟨e, ⟨d - e, by omega, by omega⟩, u, ⟨by simpa using hlen, by omega⟩, rfl⟩

theorem mem_graded {n s : Nat} {t : Tuple} :
    t ∈ graded n s ↔ t.length = n ∧ totalDegree t ≤ s := by
  simp only [graded, List.mem_flatMap, List.mem_range, mem_tuplesOfDegree]
  constructor
  · rintro ⟨d, hd, hlen, rfl⟩
    exact ⟨hlen, by omega⟩
  · rintro ⟨hlen, hle⟩
    exact ⟨totalDegree t, by omega, hlen, rfl⟩

theorem graded_succ (n s : Nat) :
    graded n (s + 1) = graded n s ++ tuplesOfDegree n (s + 1) := by
  simp [graded, List.range_succ (n := s + 1)]

theorem graded_zero (n : Nat) : graded n 0 = tuplesOfDegree n 0 := by simp [graded]

theorem graded_zero_left (s : Nat) : graded 0 s = [[]] := by
  induction s with
  | zero => rfl
  | succ s ih => simp [graded_succ, ih, tuplesOfDegree]

/-- **The recursion over the variables**: the first exponent is what the others
leave of the degree. -/
theorem tuplesOfDegree_succ (n d : Nat) :
    tuplesOfDegree (n + 1) d = (graded n d).map fun t => (d - totalDegree t) :: t := by
  rw [tuplesOfDegree, descending_eq_map, List.flatMap_map, graded, List.map_flatMap,
    List.flatMap_def, List.flatMap_def]
  congr 1
  refine List.map_congr_left fun k hk => ?_
  have hkd : d - (d - k) = k := by
    have := List.mem_range.mp hk
    omega
  rw [hkd]
  refine List.map_congr_left fun t ht => ?_
  rw [(mem_tuplesOfDegree.mp ht).2]

/-! ## Lengths -/

theorem length_tuplesOfDegree_succ (n d : Nat) :
    (tuplesOfDegree (n + 1) d).length = (graded n d).length := by
  rw [tuplesOfDegree_succ, List.length_map]

theorem length_graded (n s : Nat) : (graded n s).length = atMost n s := by
  -- by the two neighbours of an entry in the triangle of binomial coefficients
  induction n generalizing s with
  | zero => rw [graded_zero_left, atMost_zero_left]; rfl
  | succ n ih =>
      induction s with
      | zero => rw [graded_zero, length_tuplesOfDegree_succ, ih, atMost_zero_right,
          atMost_zero_right]
      | succ s ihs =>
          rw [graded_succ, List.length_append, ihs, length_tuplesOfDegree_succ, ih,
            atMost_succ_succ]

theorem below_succ (n s : Nat) : below n (s + 1) = (graded n s).length := by
  rw [below, length_graded]

/-- The tuples of degree `d` stand after those of smaller degree. -/
theorem below_add_length (n d : Nat) :
    below n d + (tuplesOfDegree n d).length = below n (d + 1) := by
  cases d with
  | zero => rw [below, Nat.zero_add, below_succ, graded_zero]
  | succ d => rw [below_succ, below_succ, graded_succ, List.length_append]

/-! ## Order -/

/-- The graded order: smaller sums first, and among equal sums the
lexicographically larger tuple. -/
def Tuple.Before (t u : Tuple) : Prop :=
  totalDegree t < totalDegree u ∨ totalDegree t = totalDegree u ∧ u < t

theorem Tuple.Before.irrefl (t : Tuple) : ¬ t.Before t := by
  rintro (h | ⟨_, h⟩)
  · exact Nat.lt_irrefl _ h
  · exact List.lt_irrefl t h

theorem Tuple.Before.asymm {t u : Tuple} (h : t.Before u) : ¬ u.Before t := by
  rintro (h' | ⟨_, h'⟩)
  · rcases h with h | ⟨h, _⟩ <;> omega
  · rcases h with h | ⟨_, h⟩
    · omega
    · exact List.lt_asymm h h'

instance : Std.Irrefl Tuple.Before := ⟨Tuple.Before.irrefl⟩

instance : Std.Antisymm Tuple.Before := ⟨fun _ _ h h' => absurd h' h.asymm⟩

theorem pairwise_graded_of {n : Nat}
    (h : ∀ d, (tuplesOfDegree n d).Pairwise Tuple.Before) (s : Nat) :
    (graded n s).Pairwise Tuple.Before := by
  rw [graded, List.pairwise_flatMap]
  refine ⟨fun d _ => h d, List.pairwise_lt_range.imp fun hlt t ht u hu => .inl ?_⟩
  rw [(mem_tuplesOfDegree.mp ht).2, (mem_tuplesOfDegree.mp hu).2]
  exact hlt

theorem pairwise_tuplesOfDegree (n d : Nat) :
    (tuplesOfDegree n d).Pairwise Tuple.Before := by
  induction n generalizing d with
  | zero => cases d <;> simp [tuplesOfDegree]
  | succ n ih =>
      rw [tuplesOfDegree_succ, List.pairwise_map]
      refine (pairwise_graded_of ih d).imp_of_mem fun {t u} ht hu hbefore => .inr ?_
      have htd := (mem_graded.mp ht).2
      have hud := (mem_graded.mp hu).2
      refine ⟨by simp only [totalDegree]; omega, List.cons_lt_cons_iff.mpr ?_⟩
      -- a smaller sum behind leaves a larger exponent in front
      rcases hbefore with hlt | ⟨heq, hlex⟩
      · exact .inl (by omega)
      · exact .inr ⟨by omega, hlex⟩

theorem pairwise_graded (n s : Nat) : (graded n s).Pairwise Tuple.Before :=
  pairwise_graded_of (pairwise_tuplesOfDegree n) s

theorem nodup_graded (n s : Nat) : (graded n s).Nodup := (pairwise_graded n s).nodup

/-! ## Places -/

/-- A larger truncation degree only appends. -/
theorem graded_isPrefix (n : Nat) {r s : Nat} (h : r ≤ s) : graded n r <+: graded n s := by
  induction s, h using Nat.le_induction with
  | base => exact List.prefix_rfl
  | succ s _ ih =>
      rw [graded_succ]
      exact ih.trans (List.prefix_append _ _)

/-- In the listing the tuples of degree `d` start at `below n d`. -/
theorem getElem?_graded {n d s i : Nat} (hds : d ≤ s)
    (hi : i < (tuplesOfDegree n d).length) :
    (graded n s)[below n d + i]? = (tuplesOfDegree n d)[i]? := by
  obtain ⟨rest, hrest⟩ := graded_isPrefix n hds
  have hlt : below n d + i < (graded n d).length := by
    have hlength := below_add_length n d
    rw [below_succ] at hlength
    omega
  rw [← hrest, List.getElem?_append_left hlt]
  cases d with
  | zero => rw [below, Nat.zero_add, graded_zero]
  | succ d =>
      rw [graded_succ, below_succ, List.getElem?_append_right (Nat.le_add_right _ _),
        Nat.add_sub_cancel_left]

/-- **Every tuple is at its rank.** -/
theorem getElem?_graded_rank {t : Tuple} {s : Nat} (h : totalDegree t ≤ s) :
    (graded t.length s)[rank t]? = some t := by
  induction t generalizing s with
  | nil => simp [graded_zero_left, rank]
  | cons e t ih =>
      have hplace : (tuplesOfDegree (t.length + 1) (e + totalDegree t))[rank t]?
          = some (e :: t) := by
        rw [tuplesOfDegree_succ, List.getElem?_map, ih (Nat.le_add_left _ _)]
        simp
      have hlt := (List.getElem?_eq_some_iff.mp hplace).1
      rw [totalDegree] at h
      rw [List.length_cons, rank, getElem?_graded h hlt, hplace]

theorem rank_lt {t : Tuple} {s : Nat} (h : totalDegree t ≤ s) : rank t < atMost t.length s := by
  rw [← length_graded]
  exact (List.getElem?_eq_some_iff.mp (getElem?_graded_rank h)).1

theorem rank_of_getElem? {n s i : Nat} {t : Tuple} (h : (graded n s)[i]? = some t) :
    rank t = i := by
  obtain ⟨hi, hget⟩ := List.getElem?_eq_some_iff.mp h
  obtain ⟨hlen, hle⟩ := mem_graded.mp (hget ▸ List.getElem_mem hi)
  obtain ⟨hr, hget'⟩ := List.getElem?_eq_some_iff.mp (getElem?_graded_rank hle)
  subst hlen
  -- the tuple stands at its rank as well, and it is listed once
  exact (nodup_graded _ _).getElem_inj_iff.mp (hget'.trans hget.symm)

theorem rank?_eq_some_iff {n s i : Nat} {t : Tuple} :
    rank? n s t = some i ↔ (graded n s)[i]? = some t := by
  rw [rank?]
  constructor
  · intro h
    split at h
    · rename_i ht
      obtain ⟨rfl, hle⟩ := ht
      rw [← Option.some.inj h, getElem?_graded_rank hle]
    · cases h
  · intro h
    obtain ⟨hi, hget⟩ := List.getElem?_eq_some_iff.mp h
    rw [if_pos (mem_graded.mp (hget ▸ List.getElem_mem hi)), rank_of_getElem? h]

/-- The place of a tuple does not depend on the truncation degree. -/
theorem rank?_of_le {n r s : Nat} {t : Tuple} (h : totalDegree t ≤ r) (hrs : r ≤ s) :
    rank? n s t = rank? n r t := by
  rw [rank?, rank?]
  simp only [h, h.trans hrs, and_true]

theorem rank?_eq_none_iff {n s : Nat} {t : Tuple} :
    rank? n s t = none ↔ t.length ≠ n ∨ s < totalDegree t := by
  rw [rank?]
  split <;> rename_i h <;> simp <;> omega

end TensorChebyshev
