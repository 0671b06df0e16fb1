import Mathlib
import TensorChebyshev.Proofs.Index.Prefix

/-!
# The tables of a basis

A machine does not count places, it looks them up. Degree by degree the tuples are
written behind each other into cells, by recursion over the variables with the
exponents chosen so far in front; the degrees of the positions and the positions at
which degrees begin are kept, and a map from tuples to positions is filled. With
more than one variable, the position of every tuple without its last exponent is
looked up in the tables of the basis of one variable less. What is stored in fewer
bits than a word has to fit, and a missing prefix stops the machine as well. For
admissible numbers it never stops, and the tables answer what the basis does.
-/

namespace TensorChebyshev

/-! ## Widths -/

/-- The number, if it is below the bound of its width. -/
def fit? (bound n : Nat) : Option Nat := if n < bound then some n else none

theorem fit?_of_lt {bound n : Nat} (h : n < bound) : fit? bound n = some n := if_pos h

/-- The first number that does not fit a stored exponent. -/
def exponentBound : Nat := 65536

/-! ## Loops that do not stop -/

/-- A loop each of whose rounds only appends. -/
theorem foldlM_append {α β : Type} {f : List β → α → Option (List β)} {g : α → List β}
    {l : List α} (h : ∀ x ∈ l, ∀ out, f out x = some (out ++ g x)) (out : List β) :
    l.foldlM f out = some (out ++ l.flatMap g) := by
  induction l generalizing out with
  | nil => simp
  | cons x l ih =>
      obtain ⟨hx, hl⟩ := List.forall_mem_cons.mp h
      rw [List.foldlM_cons, hx, Option.bind_eq_bind, Option.bind_some, ih hl, List.flatMap_cons,
        List.append_assoc]

/-- A loop each of whose rounds succeeds. -/
theorem mapM_eq_some_map {α β : Type} {f : α → Option β} {g : α → β} {l : List α}
    (h : ∀ x ∈ l, f x = some (g x)) : l.mapM f = some (l.map g) := by
  induction l with
  | nil => rfl
  | cons x l ih =>
      obtain ⟨hx, hl⟩ := List.forall_mem_cons.mp h
      rw [List.mapM_cons, hx, ih hl]
      rfl

/-! ## Writing the cells -/

/-- Writes the tuples with sum `d` in `vars + 1` further variables behind the cells, each with
the exponents in front that are chosen already. -/
def writeTuples? : (vars d : Nat) → (front : Tuple) → (cells : List Nat) → Option (List Nat)
  | 0, d, front, cells => (fit? exponentBound d).map fun e => cells ++ (front ++ [e])
  | vars + 1, d, front, cells =>
    (descending d).foldlM (fun cells e => do
      let chosen ← fit? exponentBound e
      writeTuples? vars (d - e) (front ++ [chosen]) cells) cells

theorem le_of_mem_descending {d e : Nat} (h : e ∈ descending d) : e ≤ d := by
  rw [descending_eq_map] at h
  obtain ⟨k, -, rfl⟩ := List.mem_map.mp h
  exact Nat.sub_le d k

theorem tuplesOfDegree_one (d : Nat) : tuplesOfDegree 1 d = [[d]] := by
  rw [tuplesOfDegree_succ, graded_zero_left]
  rfl

/-- **The recursion writes the tuples of a degree in their order.** -/
theorem writeTuples?_eq {vars d : Nat} (hd : d < exponentBound) (front : Tuple)
    (cells : List Nat) :
    writeTuples? vars d front cells
      = some (cells ++ (tuplesOfDegree (vars + 1) d).flatMap (front ++ ·)) := by
  induction vars generalizing d front cells with
  | zero =>
      rw [writeTuples?, fit?_of_lt hd, tuplesOfDegree_one]
      simp
  | succ vars ih =>
      have hround : ∀ e ∈ descending d, ∀ out : List Nat, (do
          let chosen ← fit? exponentBound e
          writeTuples? vars (d - e) (front ++ [chosen]) out)
            = some (out ++ ((tuplesOfDegree (vars + 1) (d - e)).map (e :: ·)).flatMap
                (front ++ ·)) := by
        intro e he out
        have hle := le_of_mem_descending he
        rw [fit?_of_lt (by omega), Option.bind_eq_bind, Option.bind_some, ih (by omega),
          List.flatMap_map]
        simp
      rw [writeTuples?, foldlM_append hround, tuplesOfDegree, List.flatMap_assoc]

/-! ## Degree by degree -/

theorem length_flatMap_tuplesOfDegree (n d : Nat) :
    ((List.range d).flatMap (tuplesOfDegree n)).length = below n d := by
  cases d with
  | zero => rfl
  | succ d =>
      rw [below_succ]
      rfl

/-- What has been written so far: the cells, the degree of each position, and the positions at
which degrees begin. -/
structure Listing where
  cells : List Nat
  degrees : List Nat
  starts : List Nat

namespace Listing

def empty : Listing := ⟨[], [], []⟩

/-- Writes the tuples of one more degree, which are as many as there are new cells for. -/
def addDegree? (nvar : Nat) (l : Listing) (d : Nat) : Option Listing := do
  let cells ← writeTuples? (nvar - 1) d [] l.cells
  let degree ← fit? exponentBound d
  let added := (cells.length - l.cells.length) / nvar
  return ⟨cells, l.degrees ++ List.replicate added degree, l.starts ++ [l.degrees.length]⟩

/-- The tuples of all degrees up to `degree`, and the end of the last one. -/
def make? (nvar degree : Nat) : Option Listing := do
  let l ← (List.range (degree + 1)).foldlM (addDegree? nvar) empty
  return { l with starts := l.starts ++ [l.degrees.length] }

/-- The tuples of smaller degree than `d` are written. -/
structure Below (l : Listing) (nvar d : Nat) : Prop where
  cells : l.cells = ((List.range d).flatMap (tuplesOfDegree nvar)).flatten
  degrees : l.degrees = ((List.range d).flatMap (tuplesOfDegree nvar)).map totalDegree
  starts : l.starts = (List.range d).map (below nvar)

variable {l : Listing} {n d : Nat}

theorem Below.length_degrees (h : l.Below n d) : l.degrees.length = below n d := by
  rw [h.degrees, List.length_map, length_flatMap_tuplesOfDegree]

/-- One more degree is written. -/
theorem Below.addDegree? (h : l.Below (n + 1) d) (hd : d < exponentBound) :
    ∃ l', Listing.addDegree? (n + 1) l d = some l' ∧ l'.Below (n + 1) (d + 1) := by
  let block := tuplesOfDegree (n + 1) d
  have hwrite : writeTuples? n d [] l.cells = some (l.cells ++ block.flatten) := by
    rw [writeTuples?_eq hd]
    simp [block, List.flatMap_id']
  have hrows : ∀ t ∈ block, t.length = n + 1 := fun t ht => (mem_tuplesOfDegree.mp ht).1
  have hadded : ((l.cells ++ block.flatten).length - l.cells.length) / (n + 1)
      = block.length := by
    rw [List.length_append, Nat.add_sub_cancel_left, length_flatten_rows hrows,
      Nat.mul_div_cancel _ (Nat.succ_pos n)]
  have hdegrees : List.replicate block.length d = block.map totalDegree := by
    refine (List.eq_replicate_iff.mpr ⟨List.length_map _, fun e he => ?_⟩).symm
    obtain ⟨t, ht, rfl⟩ := List.mem_map.mp he
    exact (mem_tuplesOfDegree.mp ht).2
  refine ⟨⟨l.cells ++ block.flatten, l.degrees ++ block.map totalDegree,
    l.starts ++ [l.degrees.length]⟩, ?_, ?_⟩
  · rw [Listing.addDegree?, Nat.add_sub_cancel, hwrite, fit?_of_lt hd]
    simp only [Option.bind_eq_bind, Option.bind_some, hadded, hdegrees]
    rfl
  · have hrange : (List.range (d + 1)).flatMap (tuplesOfDegree (n + 1))
        = (List.range d).flatMap (tuplesOfDegree (n + 1)) ++ block := by
      rw [List.range_succ, List.flatMap_append, List.flatMap_singleton]
    constructor
    · rw [hrange, List.flatten_append, h.cells]
    · rw [hrange, List.map_append, h.degrees]
    · rw [h.length_degrees, h.starts, List.range_succ, List.map_append, List.map_singleton]

/-- **All degrees are written**, and where they begin and end is how many tuples there are
below. -/
theorem make?_eq {degree : Nat} (hd : degree < exponentBound) :
    make? (n + 1) degree = some ⟨(graded (n + 1) degree).flatten,
      (graded (n + 1) degree).map totalDegree, (List.range (degree + 2)).map (below (n + 1))⟩ := by
  have hloop : ∀ d ≤ degree + 1, ∃ l,
      (List.range d).foldlM (Listing.addDegree? (n + 1)) empty = some l ∧ l.Below (n + 1) d := by
    intro d
    induction d with
    | zero => exact fun _ => ⟨empty, rfl, rfl, rfl, rfl⟩
    | succ d ih =>
        intro hle
        obtain ⟨l, hrun, hl⟩ := ih (Nat.le_of_succ_le hle)
        obtain ⟨l', hadd, hl'⟩ := hl.addDegree? (by omega)
        refine ⟨l', ?_, hl'⟩
        rw [List.range_succ, List.foldlM_append, hrun, Option.bind_eq_bind, Option.bind_some,
          List.foldlM_cons, hadd]
        rfl
  obtain ⟨l, hrun, hl⟩ := hloop (degree + 1) (Nat.le_refl _)
  have hstarts : l.starts ++ [l.degrees.length]
      = (List.range (degree + 2)).map (below (n + 1)) := by
    rw [hl.length_degrees, hl.starts, List.range_succ (n := degree + 1), List.map_append,
      List.map_singleton]
  rw [make?, hrun, Option.bind_eq_bind, Option.bind_some, hstarts, hl.cells, hl.degrees]
  rfl

end Listing

/-! ## Looking up positions -/

/-- Cells in rows of `n`, without what is left at the end. -/
def rowsOf (n : Nat) (cells : List Nat) : List Tuple :=
  (List.range (cells.length / n)).map fun i => (cells.drop (i * n)).take n

theorem rowsOf_flatten {n : Nat} {rows : List Tuple} (hn : 0 < n)
    (h : ∀ t ∈ rows, t.length = n) : rowsOf n rows.flatten = rows := by
  have hcount : rows.flatten.length / n = rows.length := by
    rw [length_flatten_rows h, Nat.mul_div_cancel _ hn]
  rw [rowsOf, hcount]
  refine List.ext_getElem (by simp) fun i _ hi => ?_
  rw [List.getElem_map, List.getElem_range, drop_take_flatten h hi]

/-- A map from tuples to their positions. -/
def positionsOf? (rows : List Tuple) : Option (Std.HashMap Tuple Nat) := do
  let entries ← rows.zipIdx.mapM fun row => (fit? halfWordBound row.2).map fun i => (row.1, i)
  return Std.HashMap.ofList entries

theorem mapM_fit?_zipIdx {rows : List Tuple} (hsize : rows.length ≤ halfWordBound) :
    rows.zipIdx.mapM (fun row => (fit? halfWordBound row.2).map fun i => (row.1, i))
      = some rows.zipIdx := by
  have hfits : ∀ row ∈ rows.zipIdx,
      ((fit? halfWordBound row.2).map fun i => (row.1, i)) = some (id row) := by
    intro row hrow
    have hlt := (List.mem_zipIdx hrow).2.1
    rw [fit?_of_lt (by omega), Option.map_some]
    rfl
  rw [mapM_eq_some_map hfits, List.map_id]

/-- No tuple is entered twice. -/
theorem pairwise_zipIdx {rows : List Tuple} (hnodup : rows.Nodup) :
    rows.zipIdx.Pairwise fun x y => (x.1 == y.1) = false := by
  have hrows : (rows.zipIdx.map Prod.fst).Pairwise fun t u => (t == u) = false := by
    rw [List.zipIdx_map_fst]
    exact hnodup.imp fun hne => by simpa using hne
  rwa [List.pairwise_map] at hrows

/-- Different tuples are found at their positions, and others are not found. -/
theorem positionsOf?_eq {rows : List Tuple} (hsize : rows.length ≤ halfWordBound)
    (hnodup : rows.Nodup) : ∃ positions, positionsOf? rows = some positions ∧
      ∀ (t : Tuple) (i : Nat), positions[t]? = some i ↔ rows[i]? = some t := by
  have hfound : ∀ (t : Tuple) (i : Nat), rows[i]? = some t →
      (Std.HashMap.ofList rows.zipIdx)[t]? = some i := fun t i hget =>
    Std.HashMap.getElem?_ofList_of_mem (beq_self_eq_true t) (pairwise_zipIdx hnodup)
      (List.mk_mem_zipIdx_iff_getElem?.mpr hget)
  refine ⟨Std.HashMap.ofList rows.zipIdx, ?_, fun t i => ⟨fun h => ?_, hfound t i⟩⟩
  · rw [positionsOf?, mapM_fit?_zipIdx hsize]
    rfl
  · by_cases hmem : t ∈ rows
    · obtain ⟨k, hk⟩ := List.mem_iff_getElem?.mp hmem
      rw [hfound t k hk] at h
      rwa [← Option.some.inj h]
    · have hnone : (rows.zipIdx.map Prod.fst).contains t = false := by
        rw [List.zipIdx_map_fst]
        simpa using hmem
      rw [Std.HashMap.getElem?_ofList_of_contains_eq_false hnone] at h
      cases h

/-! ## The tables -/

/-- What is stored for a basis. -/
structure BasisTables where
  nvar : Nat
  degree : Nat
  cells : Array Nat
  degrees : Array Nat
  starts : Array Nat
  positions : Std.HashMap Tuple Nat
  parents : Array Nat

namespace BasisTables

section Read

variable (p : BasisTables)

def size : Nat := p.degrees.size

def rank? (t : Tuple) : Option Nat := if t.length = p.nvar then p.positions[t]? else none

def degreeAt? (i : Nat) : Option Nat := p.degrees[i]?

/-- What the degree at a position leaves of the truncation degree, which it must not exceed. -/
def slackAt? (i : Nat) : Option Nat := do
  let d ← p.degreeAt? i
  if d ≤ p.degree then some (p.degree - d) else none

def parent? (i : Nat) : Option Nat := p.parents[i]?

/-- Where a degree begins and where the next one does. -/
def block? (d : Nat) : Option (Nat × Nat) :=
  if p.degree < d then some (p.size, p.size)
  else do
    let first ← p.starts[d]?
    let next ← p.starts[d + 1]?
    return (first, next)

end Read

/-- The positions of the rows without their last exponents, in the tables of `n` variables.
Without variables there are no such tables, and nothing is stored. -/
def parentsOf? (smaller : Option BasisTables) (n : Nat) (rows : List Tuple) :
    Option (List Nat) :=
  if 0 < n then do
    let p ← smaller
    rows.mapM fun t => do
      let parent ← p.rank? (t.take n)
      fit? halfWordBound parent
  else some []

/-- The tables for `nvar` variables up to `degree`, if there is no reason against them. -/
def make? (degree : Nat) : (nvar : Nat) → Option BasisTables
  | 0 => none
  | n + 1 => do
    let _ ← (GradedBasis.build (n + 1) degree).toOption
    let listing ← Listing.make? (n + 1) degree
    let rows := rowsOf (n + 1) listing.cells
    let positions ← positionsOf? rows
    let parents ← parentsOf? (make? degree n) n rows
    return {
      nvar := n + 1
      degree
      cells := listing.cells.toArray
      degrees := listing.degrees.toArray
      starts := listing.starts.toArray
      positions
      parents := parents.toArray }

/-- The tables answer what the basis does. -/
structure Holds (p : BasisTables) (b : GradedBasis) : Prop where
  nvar : p.nvar = b.nvar
  size : p.size = b.size
  cells : p.cells = b.cells
  rank : ∀ t, p.rank? t = b.rank? t
  degreeAt : ∀ i, p.degreeAt? i = b.degreeAt? i
  slackAt : ∀ i, p.slackAt? i = b.slackAt? i
  block : ∀ d, p.block? d = some (b.block d)
  parent : ∀ i, p.parent? i = b.parent? i

variable {b c : GradedBasis}

theorem getElem?_degrees (b : GradedBasis) (i : Nat) :
    ((graded b.nvar b.degree).map totalDegree).toArray[i]? = b.degreeAt? i := by
  rw [List.getElem?_toArray, List.getElem?_map, GradedBasis.degreeAt?, b.tuples_getElem?]

theorem size_degrees (b : GradedBasis) :
    ((graded b.nvar b.degree).map totalDegree).toArray.size = b.size := by
  rw [List.size_toArray, List.length_map, b.size_eq]

/-- Where the listing, the map and the parents are right, every answer is. -/
theorem holds_mk (positions : Std.HashMap Tuple Nat) (parents : Array Nat)
    (hpositions : ∀ (t : Tuple) (i : Nat),
      positions[t]? = some i ↔ (graded b.nvar b.degree)[i]? = some t)
    (hparents : ∀ i : Nat, parents[i]? = b.parent? i) :
    Holds ⟨b.nvar, b.degree, (graded b.nvar b.degree).flatten.toArray,
      ((graded b.nvar b.degree).map totalDegree).toArray,
      ((List.range (b.degree + 2)).map (below b.nvar)).toArray, positions, parents⟩ b where
  nvar := rfl
  size := size_degrees b
  cells := b.cells_eq.symm
  rank := by
    intro t
    apply Option.ext
    intro i
    rw [rank?, b.rank?_eq_some_iff, b.tuples_getElem?, ← hpositions]
    by_cases hlen : t.length = b.nvar
    · rw [if_pos hlen]
    -- a tuple of another length is not in the map
    · rw [if_neg hlen]
      constructor
      · intro h
        cases h
      · intro h
        exact absurd (b.length_of_mem (List.mem_of_getElem? ((hpositions t i).mp h))) hlen
  degreeAt := getElem?_degrees b
  slackAt := by
    intro i
    rw [slackAt?, degreeAt?, getElem?_degrees, GradedBasis.slackAt?]
    cases hget : b.degreeAt? i with
    | none => rfl
    | some d =>
        obtain ⟨t, ht, rfl⟩ := b.degreeAt?_eq_some_iff.mp hget
        exact if_pos (b.mem_of_getElem? ht).2
  block := by
    intro d
    rw [block?, GradedBasis.block, size, size_degrees]
    by_cases hd : d ≤ b.degree
    · have hstart : ∀ k ≤ b.degree + 1, ((List.range (b.degree + 2)).map (below b.nvar))[k]?
          = some (below b.nvar k) := by
        intro k hk
        rw [List.getElem?_map, List.getElem?_range (by omega), Option.map_some]
      rw [if_neg (Nat.not_lt.mpr hd), if_pos hd, List.getElem?_toArray, List.getElem?_toArray,
        hstart d (by omega), hstart (d + 1) (by omega)]
      rfl
    · rw [if_pos (Nat.not_le.mp hd), if_neg hd]
  parent := hparents

/-- **Every prefix is found** in the tables of one variable less. -/
theorem Holds.parentsOf? {p : BasisTables} (h : p.Holds c) (hv : b.nvar = c.nvar + 1)
    (hd : b.degree = c.degree) :
    ∃ parents, BasisTables.parentsOf? (some p) c.nvar (graded b.nvar b.degree) = some parents ∧
      ∀ i : Nat, parents[i]? = b.parent? i := by
  have hpos := c.admissible.nvar_pos
  have hfound : ∀ t ∈ graded b.nvar b.degree, (do
      let parent ← p.rank? (t.take c.nvar)
      fit? halfWordBound parent) = some (TensorChebyshev.rank t.dropLast) := by
    intro t ht
    have hlen : t.length - 1 = c.nvar := by
      rw [b.length_of_mem ht, hv, Nat.add_sub_cancel]
    have hmem : t.dropLast ∈ graded c.nvar c.degree := by
      rw [hv, hd] at ht
      exact dropLast_mem_graded ht
    have hrank : c.rank? t.dropLast = some (TensorChebyshev.rank t.dropLast) :=
      if_pos (mem_graded.mp hmem)
    have hlt := (Array.getElem?_eq_some_iff.mp (c.rank?_eq_some_iff.mp hrank)).1
    rw [← hlen, ← List.dropLast_eq_take, h.rank, hrank, Option.bind_eq_bind, Option.bind_some,
      fit?_of_lt (hlt.trans c.size_lt_halfWordBound)]
  refine ⟨_, (if_pos hpos).trans (mapM_eq_some_map hfound), fun i => ?_⟩
  rw [List.getElem?_map, ← b.tuples_getElem?]
  cases hget : b.tuples[i]? with
  | none => rw [GradedBasis.parent?, hget, Option.bind_none, ite_self, Option.map_none]
  | some t => rw [GradedBasis.parent?_eq hv hpos hget, Option.map_some]

/-- With one variable there are no prefixes. -/
theorem parentsOf?_zero (hv : b.nvar = 1) (smaller : Option BasisTables) (rows : List Tuple) :
    ∃ parents, parentsOf? smaller 0 rows = some parents ∧
      ∀ i : Nat, parents[i]? = b.parent? i := by
  refine ⟨[], rfl, fun i => ?_⟩
  rw [GradedBasis.parent?, if_neg (by omega), List.getElem?_nil]

/-- **The tables of admissible numbers are made, and they answer what the basis does.** By
induction on the number of variables: the tables of one variable less are there. -/
theorem make?_holds {nvar degree : Nat} (h : Admissible nvar degree) :
    ∃ p, make? degree nvar = some p ∧ p.Holds (GradedBasis.ofAdmissible h) := by
  induction nvar with
  | zero => exact absurd h.nvar_pos (Nat.lt_irrefl 0)
  | succ n ih =>
      let b := GradedBasis.ofAdmissible h
      have hlist : Listing.make? (n + 1) degree = _ :=
        Listing.make?_eq (Nat.lt_of_le_of_lt h.degree_le (by decide))
      have hrows : rowsOf (n + 1) (graded (n + 1) degree).flatten = graded (n + 1) degree :=
        rowsOf_flatten (Nat.succ_pos n) fun t ht => (mem_graded.mp ht).1
      have hsize : (graded (n + 1) degree).length ≤ halfWordBound := by
        have hlt := b.size_lt_halfWordBound
        rw [GradedBasis.size_eq] at hlt
        exact hlt.le
      obtain ⟨positions, hpositions, hfound⟩ :=
        positionsOf?_eq hsize (nodup_graded (n + 1) degree)
      have hparents : ∃ parents,
          parentsOf? (make? degree n) n (graded (n + 1) degree) = some parents ∧
          ∀ i : Nat, parents[i]? = b.parent? i := by
        rcases Nat.eq_zero_or_pos n with rfl | hn
        · exact parentsOf?_zero (b := b) rfl _ _
        · obtain ⟨p, hp, hholds⟩ := ih (h.mono hn (Nat.le_succ n) (Nat.le_refl _))
          rw [hp]
          exact hholds.parentsOf? (b := b) rfl rfl
      obtain ⟨parents, hmake, hparents⟩ := hparents
      refine ⟨_, ?_, holds_mk (b := b) positions parents.toArray hfound fun i => ?_⟩
      · rw [make?, GradedBasis.build_of_admissible h, hlist]
        simp only [Except.toOption, Option.bind_eq_bind, Option.bind_some, hrows, hpositions,
          hmake]
        rfl
      · rw [List.getElem?_toArray, hparents]

end BasisTables

end TensorChebyshev
