import TensorChebyshev.Proofs.Checked.Sum

/-!
# Groups of positions

The positions whose tuples extend one tuple of the basis without the last
variable form a group. In their order in the basis they carry the last exponents
`0, 1, …` up to what that tuple leaves of the degree, although they stand in
different blocks of degree. Every position is in a group, so the positions of
the prefixes that are kept with a table can always be looked up.
-/

namespace TensorChebyshev

/-- Choosing positions by their entries is choosing entries. -/
theorem map_getElem?_filter_range {α : Type} {l : List α} {P : Nat → Bool} {Q : α → Bool}
    (h : ∀ i x, l[i]? = some x → P i = Q x) :
    ((List.range l.length).filter P).map (fun i => l[i]?) = (l.filter Q).map some := by
  have hall : (List.range l.length).map (fun i => l[i]?) = l.map some :=
    List.ext_getElem (by simp) fun i _ _ => by simp
  have hkey : ∀ i ∈ List.range l.length, P i = ((Option.any Q) ∘ fun i => l[i]?) i := by
    intro i hi
    have hget := List.getElem?_eq_getElem (List.mem_range.mp hi)
    rw [h i _ hget, Function.comp_apply, hget, Option.any_some]
  rw [List.filter_congr hkey, ← List.filter_map, hall, List.filter_map]
  rfl

namespace GradedBasis

/-- `c` is the basis `b` without the last variable. -/
structure Drops (c b : GradedBasis) : Prop where
  nvar_eq : b.nvar = c.nvar + 1
  degree_eq : b.degree = c.degree

/-- The positions with the parent `p`, in increasing order. -/
def children (b : GradedBasis) (p : Nat) : List Nat :=
  (List.range b.size).filter fun i => b.parent? i == some p

variable {b c : GradedBasis}

theorem exists_drops (h : 2 ≤ b.nvar) :
    ∃ c, build (b.nvar - 1) b.degree = .ok c ∧ Drops c b := by
  have hadm : Admissible (b.nvar - 1) b.degree :=
    b.admissible.mono (by omega) (Nat.sub_le _ _) (Nat.le_refl _)
  exact ⟨ofAdmissible hadm, build_of_admissible hadm,
    (Nat.sub_add_cancel b.admissible.nvar_pos).symm, rfl⟩

namespace Drops

variable (h : Drops c b)

include h

/-- The parent of a position is where its tuple stands without the last exponent. -/
theorem parent?_eq_some_iff {i p : Nat} :
    b.parent? i = some p ↔ ∃ t, b.tuples[i]? = some t ∧ c.tuples[p]? = some t.dropLast := by
  have hpos := c.admissible.nvar_pos
  have hrank : ∀ t : Tuple, TensorChebyshev.rank? (b.nvar - 1) b.degree t.dropLast
      = c.rank? t.dropLast := fun t => by
    rw [rank?, h.nvar_eq, h.degree_eq, Nat.add_sub_cancel]
  rw [parent?, if_pos (by rw [h.nvar_eq]; omega), Option.bind_eq_some_iff]
  simp only [hrank, rank?_eq_some_iff]

theorem exists_parent {i : Nat} (hi : i < b.size) : ∃ p < c.size, b.parent? i = some p := by
  have hget : b.tuples[i]? = some b.tuples[i] := Array.getElem?_eq_getElem hi
  have hmem := b.mem_of_getElem? hget
  rw [h.nvar_eq, h.degree_eq] at hmem
  obtain ⟨p, hp⟩ := List.getElem?_of_mem (dropLast_mem_graded (mem_graded.mpr hmem))
  rw [← c.tuples_getElem?] at hp
  exact ⟨p, (Array.getElem?_eq_some_iff.mp hp).1,
    h.parent?_eq_some_iff.mpr ⟨_, hget, hp⟩⟩

/-- **Groups are dense and sorted**: the tuples of a group are the one at their parent with the
last exponents from zero on, in this order and none left out. -/
theorem map_tuples_children {p : Nat} {q : Tuple} (hq : c.tuples[p]? = some q) :
    (b.children p).map (fun i => b.tuples[i]?)
      = (List.range (c.degree - totalDegree q + 1)).map fun e => some (q ++ [e]) := by
  have hkey : ∀ i t, (graded b.nvar b.degree)[i]? = some t →
      (b.parent? i == some p) = (t.dropLast == q) := by
    intro i t ht
    rw [← b.tuples_getElem?] at ht
    rw [Bool.eq_iff_iff, beq_iff_eq, beq_iff_eq, h.parent?_eq_some_iff]
    constructor
    · rintro ⟨u, hu, hp⟩
      rw [ht] at hu
      obtain rfl := Option.some.inj hu
      exact Option.some.inj (hp.symm.trans hq)
    · rintro rfl
      exact ⟨t, ht, hq⟩
  have hmem : q ∈ graded c.nvar c.degree := mem_graded.mpr (c.mem_of_getElem? hq)
  simp only [children, b.tuples_getElem?, size_eq]
  rw [map_getElem?_filter_range hkey, h.nvar_eq, h.degree_eq, filter_dropLast_graded hmem,
    List.map_map]
  rfl

theorem map_lastAt_children {p : Nat} {q : Tuple} (hq : c.tuples[p]? = some q) :
    (b.children p).map b.lastAt? = (List.range (c.degree - totalDegree q + 1)).map some := by
  have hgroup := congrArg (List.map fun t : Option Tuple => t.bind List.getLast?)
    (h.map_tuples_children hq)
  rw [List.map_map, List.map_map] at hgroup
  refine hgroup.trans (List.map_congr_left fun e _ => ?_)
  rw [Function.comp_apply, Option.bind_some, List.getLast?_concat]

/-- A position of a group extends the tuple of its parent by its last exponent. -/
theorem tuple_of_mem_children {i p : Nat} {q : Tuple} (hq : c.tuples[p]? = some q)
    (hi : i ∈ b.children p) :
    ∃ e, b.lastAt? i = some e ∧ b.tuples[i]? = some (q ++ [e]) := by
  have hget : b.tuples[i]? ∈ (b.children p).map fun i => b.tuples[i]? :=
    List.mem_map_of_mem hi
  rw [h.map_tuples_children hq] at hget
  obtain ⟨e, -, he⟩ := List.mem_map.mp hget
  refine ⟨e, ?_, he.symm⟩
  rw [lastAt?, ← he, Option.bind_some, List.getLast?_concat]

end Drops

/-- **The groups of a basis are dense and sorted, and no position is without one.** From two
variables on there is a basis without the last variable. Every position has a parent there, and
the positions with one parent, in increasing order, are as many as the parent leaves of the
degree and one more; they carry the last exponents from zero on and extend its tuple by them. So
the positions of all prefixes are found when a table is made: they are the parents. -/
theorem parents_dense {nvar degree : Nat} {b : GradedBasis} (hb : build nvar degree = .ok b)
    (hv : 2 ≤ nvar) :
    ∃ c, build (nvar - 1) degree = .ok c ∧
      (∀ i < b.size, ∃ p < c.size, b.parent? i = some p) ∧
      (∀ p < c.size, ∃ (q : Tuple) (m : Nat), c.tuples[p]? = some q ∧ c.slackAt? p = some m ∧
        (b.children p).length = m + 1 ∧
        (b.children p).map b.lastAt? = (List.range (m + 1)).map some ∧
        ∀ i ∈ b.children p, ∃ e, b.lastAt? i = some e ∧ b.tuples[i]? = some (q ++ [e])) ∧
      ∀ R : Type, (Sums.table degree nvar : Checked R GradedBasis) = .ok b ∧
        ∃ ps, (Sums.prefixes c b : Checked R (List Nat)) = .ok ps ∧
          ∀ i : Nat, ps[i]? = b.parent? i := by
  obtain ⟨rfl, rfl⟩ := numbers_of_build hb
  obtain ⟨c, hc, h⟩ := exists_drops hv
  refine ⟨c, hc, fun i hi => h.exists_parent hi, fun p hp => ?_, fun R => ⟨?_, ?_⟩⟩
  · have hq : c.tuples[p]? = some c.tuples[p] := Array.getElem?_eq_getElem hp
    have hslack : c.slackAt? p = some (c.degree - totalDegree c.tuples[p]) := by
      rw [slackAt?, degreeAt?, hq, Option.map_some, Option.map_some]
    have hlast := h.map_lastAt_children hq
    have hlength := congrArg List.length hlast
    rw [List.length_map, List.length_map, List.length_range] at hlength
    exact ⟨_, _, hq, hslack, hlength, hlast, fun i hi => h.tuple_of_mem_children hq hi⟩
  · rw [Sums.table_eq, hb]
    rfl
  · exact Sums.prefixes_ok c h.nvar_eq h.degree_eq

/-- In two variables up to degree two the linear function of the first variable is extended by
the exponents zero and one of the second. -/
theorem parents_dense_square : ∃ b c : GradedBasis, build 2 2 = .ok b ∧ build 1 2 = .ok c ∧
    c.slackAt? 1 = some 1 ∧ (b.children 1).map b.lastAt? = [some 0, some 1] := by
  have hadm : Admissible 2 2 := ⟨by decide, by decide, by decide⟩
  obtain ⟨c, hc, -, hgroups, -⟩ := parents_dense (build_of_admissible hadm) (by decide)
  obtain ⟨hnvar, hdegree⟩ := numbers_of_build hc
  have hsize : c.size = 3 := by
    rw [size_eq, hnvar, hdegree]
    rfl
  have hslack : c.slackAt? 1 = some 1 := by
    rw [slackAt?, degreeAt?, tuples_getElem?, hnvar, hdegree]
    rfl
  obtain ⟨q, m, -, hm, -, hlast, -⟩ := hgroups 1 (by omega)
  obtain rfl : 1 = m := Option.some.inj (hslack.symm.trans hm)
  exact ⟨_, c, build_of_admissible hadm, hc, hslack, hlast⟩

end GradedBasis

end TensorChebyshev
