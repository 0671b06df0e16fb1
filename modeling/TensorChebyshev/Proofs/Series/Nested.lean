import TensorChebyshev.Proofs.Series.Clenshaw

/-!
# Nested sums

A series in several variables is summed one variable at a time. The groups that
the last variable is summed over are found by position alone; that they are the
coefficients of the extensions of one tuple, all of them and in order, is what
makes the nested sum the sum over all tuples.
-/

namespace TensorChebyshev

/-! ## Sums by key -/

theorem sum_range_ite {M : Type} [AddCommMonoid M] (n k : Nat) (a : M) :
    ((List.range n).map fun p => if k = p then a else 0).sum = if k < n then a else 0 := by
  induction n with
  | zero => simp
  | succ n ih =>
      rw [List.range_succ, List.map_append, List.sum_append, ih]
      rcases Nat.lt_trichotomy k n with h | h | h
      · simp [h, h.ne, Nat.lt_succ_of_lt h]
      · simp [h]
      · have hn : ¬ k < n + 1 := by omega
        simp [Nat.not_lt_of_gt h, h.ne', hn]

/-- A sum is the sum over all keys of the sums over what has the key. -/
theorem sum_filter_key {α M : Type} [AddCommMonoid M] (key : α → Nat) (f : α → M) {n : Nat}
    {l : List α} (h : ∀ x ∈ l, key x < n) :
    ((List.range n).map fun p => ((l.filter fun x => key x == p).map f).sum).sum
      = (l.map f).sum := by
  induction l with
  | nil => simp
  | cons x l ih =>
      have hsplit : ∀ p, (((x :: l).filter fun x => key x == p).map f).sum
          = (if key x = p then f x else 0) + ((l.filter fun x => key x == p).map f).sum := by
        intro p
        by_cases hp : key x = p <;> simp [hp]
      simp only [hsplit]
      rw [List.sum_map_add, sum_range_ite, if_pos (h x (List.mem_cons_self ..)),
        ih fun y hy => h y (List.mem_cons_of_mem _ hy), List.map_cons, List.sum_cons]

/-! ## Labelled coefficients -/

/-- Coefficients of a basis with their tuples. -/
def GradedBasis.labelled {V : Type} (b : GradedBasis) (cs : List V) : List (Tuple × V) :=
  b.tuples.toList.zip cs

namespace GradedBasis

variable {V : Type} {b : GradedBasis} {cs : List V}

theorem labelled_eq_zip (b : GradedBasis) (cs : List V) :
    b.labelled cs = (graded b.nvar b.degree).zip cs := by
  rw [labelled, tuples_eq]

theorem map_fst_labelled (h : cs.length = b.size) :
    (b.labelled cs).map Prod.fst = graded b.nvar b.degree := by
  rw [labelled_eq_zip, List.map_fst_zip]
  rw [h, size_eq]

theorem length_labelled (h : cs.length = b.size) : (b.labelled cs).length = b.size := by
  rw [labelled_eq_zip, List.length_zip, h, size_eq, Nat.min_self]

theorem fst_mem_of_mem_labelled {x : Tuple × V} (hx : x ∈ b.labelled cs) :
    x.1 ∈ graded b.nvar b.degree := by
  rw [labelled_eq_zip] at hx
  exact (List.of_mem_zip hx).1

/-- The coefficients of the tuples whose prefix has rank `p`. -/
def extensions (b : GradedBasis) (cs : List V) (p : Nat) : List (Tuple × V) :=
  (b.labelled cs).filter fun x => TensorChebyshev.rank x.1.dropLast == p

theorem getElem?_tuples_of_lt {i : Nat} (h : i < (graded b.nvar b.degree).length) :
    b.tuples[i]? = some (graded b.nvar b.degree)[i] := by
  rw [tuples_getElem?, List.getElem?_eq_getElem h]

/-- The parent positions are the ranks of the prefixes. -/
theorem keyed_eq {n : Nat} (hn : b.nvar = n + 1) (hpos : 0 < n) (h : cs.length = b.size) :
    (cs.zipIdx.map fun c => (b.parent? c.2, c.1))
      = (b.labelled cs).map fun x => (some (TensorChebyshev.rank x.1.dropLast), x.2) := by
  refine List.ext_getElem (by simp [length_labelled h, h]) fun i hi hi' => ?_
  have hlt : i < (graded b.nvar b.degree).length := by
    rw [← size_eq]
    simpa [h] using hi
  simp [parent?_eq hn hpos (getElem?_tuples_of_lt hlt), labelled_eq_zip]

theorem groups_eq {n : Nat} (hn : b.nvar = n + 1) (hpos : 0 < n) (h : cs.length = b.size)
    (count : Nat) :
    b.groups count cs = (List.range count).map fun p => (b.extensions cs p).map Prod.snd := by
  rw [groups, keyed_eq hn hpos h]
  refine List.map_congr_left fun p _ => ?_
  rw [List.filter_map, List.map_map]
  rfl

theorem rank_inj {n s : Nat} {t u : Tuple} (ht : t ∈ graded n s) (hu : u ∈ graded n s) :
    TensorChebyshev.rank t = TensorChebyshev.rank u ↔ t = u := by
  refine ⟨fun h => ?_, fun h => h ▸ rfl⟩
  obtain ⟨rfl, hts⟩ := mem_graded.mp ht
  obtain ⟨hlen, hus⟩ := mem_graded.mp hu
  have h1 := getElem?_graded_rank hts
  have h2 := getElem?_graded_rank hus
  rw [hlen, ← h, h1] at h2
  exact Option.some.inj h2

/-- The extensions of a tuple carry the last exponents `0, 1, …` in order. -/
theorem map_fst_extensions {n : Nat} {q : Tuple} (hn : b.nvar = n + 1)
    (h : cs.length = b.size) (hq : q ∈ graded n b.degree) :
    (b.extensions cs (TensorChebyshev.rank q)).map Prod.fst
      = (List.range (b.degree - totalDegree q + 1)).map fun e => q ++ [e] := by
  have hkey : ∀ x ∈ b.labelled cs,
      (TensorChebyshev.rank x.1.dropLast == TensorChebyshev.rank q) = (x.1.dropLast == q) := by
    intro x hx
    have hmem := fst_mem_of_mem_labelled hx
    rw [hn] at hmem
    rw [Bool.eq_iff_iff, beq_iff_eq, beq_iff_eq, rank_inj (dropLast_mem_graded hmem) hq]
  rw [← filter_dropLast_graded hq, ← hn, ← map_fst_labelled h, List.filter_map, extensions,
    List.filter_congr hkey]
  rfl

theorem map_labelled_range {W : Type} (b : GradedBasis) {g : Nat → V} {f : Tuple × V → W}
    {F : Nat → W} (hF : ∀ (p : Nat) (t : Tuple), b.tuples[p]? = some t → f (t, g p) = F p) :
    (b.labelled ((List.range b.size).map g)).map f = (List.range b.size).map F := by
  refine List.ext_getElem (by simp [length_labelled]) fun p hp hp' => ?_
  have hlt : p < (graded b.nvar b.degree).length := by
    rw [← size_eq]
    simpa using hp'
  simp [labelled_eq_zip, hF p _ (getElem?_tuples_of_lt hlt)]

end GradedBasis

/-! ## The nested sum -/

variable {V : Type} [AddCommGroup V]

/-- Summing over the last exponent makes terms of the whole tuples. -/
theorem tensorMap_clenshaw (L : Nat → AddMonoid.End V) {q : Tuple} {m : Nat}
    {l : List (Tuple × V)} (h : l.map Prod.fst = (List.range m).map fun e => q ++ [e]) :
    tensorMap L 0 q (clenshaw (L q.length) (l.map Prod.snd))
      = (l.map fun x => tensorMap L 0 x.1 x.2).sum := by
  have hlen : l.length = m := by simpa using congrArg List.length h
  have hlast : l.map (fun x => x.1.getLastD 0) = List.range' 0 l.length := by
    have := congrArg (List.map fun t => t.getLastD 0) h
    rw [List.map_map, List.map_map] at this
    rw [hlen, ← List.range_eq_range']
    simpa [Function.comp_def] using this
  have hmem : ∀ x ∈ l, x.1 = q ++ [x.1.getLastD 0] := by
    intro x hx
    have hx' : x.1 ∈ l.map Prod.fst := List.mem_map_of_mem hx
    rw [h, List.mem_map] at hx'
    obtain ⟨e, -, he⟩ := hx'
    simp [← he]
  rw [clenshaw_eq_seriesFrom, seriesFrom_eq_sum _ (fun x => x.1.getLastD 0) Prod.snd l 0 hlast,
    map_list_sum, List.map_map]
  congr 1
  refine List.map_congr_left fun x hx => ?_
  rw [hmem x hx, tensorMap_concat, Nat.zero_add]
  simp

/-- **The nested sum is the sum over all tuples**, and the smaller bases that it
needs on the way are there. -/
theorem GradedBasis.sumFrom_eq (L : Nat → AddMonoid.End V) (v : Nat) (b : GradedBasis)
    (cs : List V) (hv : b.nvar = v + 1) (h : cs.length = b.size) :
    sumFrom (fun v b => L v b) v b cs
      = .ok ((b.labelled cs).map fun x => tensorMap L 0 x.1 x.2).sum := by
  induction v generalizing b cs with
  | zero =>
      -- one variable: all tuples extend the empty one
      have hfst : (b.labelled cs).map Prod.fst
          = (List.range (b.degree + 1)).map fun e => [] ++ [e] := by
        have hq : ([] : Tuple) ∈ graded 0 b.degree := by simp [graded_zero_left]
        have hall := filter_dropLast_graded (s := b.degree) hq
        rw [List.filter_eq_self.mpr, totalDegree, Nat.sub_zero] at hall
        · rw [map_fst_labelled h, hv, hall]
        · intro t ht
          have := dropLast_mem_graded ht
          rw [graded_zero_left] at this
          simpa using this
      have hsnd : (b.labelled cs).map Prod.snd = cs := by
        rw [labelled_eq_zip, List.map_snd_zip]
        rw [h, size_eq]
      rw [sumFrom, ← tensorMap_clenshaw L hfst, hsnd]
      rfl
  | succ v ih =>
      -- the sums over the last variable are coefficients of the smaller basis
      have hadm : Admissible (v + 1) b.degree :=
        b.admissible.mono (Nat.succ_pos v) (by omega) (Nat.le_refl _)
      let smaller := GradedBasis.ofAdmissible hadm
      let inner := fun p => clenshaw (L (v + 1)) ((b.extensions cs p).map Prod.snd)
      have hgroups : (b.groups smaller.size cs).map (clenshaw (L (v + 1)))
          = (List.range smaller.size).map inner := by
        rw [groups_eq hv (Nat.succ_pos v) h, List.map_map]
        rfl
      have hterms : ∀ (p : Nat) (q : Tuple), smaller.tuples[p]? = some q →
          tensorMap L 0 q (inner p)
            = ((b.extensions cs p).map fun x => tensorMap L 0 x.1 x.2).sum := by
        intro p q hq
        obtain ⟨hlen, hle⟩ := smaller.mem_of_getElem? hq
        have hp : TensorChebyshev.rank q = p := by
          rw [tuples_getElem?] at hq
          exact rank_of_getElem? hq
        have hfst := map_fst_extensions hv h (mem_graded.mpr ⟨hlen, hle⟩)
        rw [hp] at hfst
        rw [← tensorMap_clenshaw L hfst, hlen]
        rfl
      have hkeys : ∀ x ∈ b.labelled cs, TensorChebyshev.rank x.1.dropLast < smaller.size := by
        intro x hx
        have hmem := fst_mem_of_mem_labelled hx
        rw [hv] at hmem
        obtain ⟨hlen, hle⟩ := mem_graded.mp (dropLast_mem_graded hmem)
        rw [smaller.size_eq_atMost, show smaller.nvar = v + 1 from rfl, ← hlen]
        exact rank_lt hle
      rw [sumFrom, build_of_admissible hadm]
      show sumFrom (fun v b => L v b) v smaller
        ((b.groups smaller.size cs).map (clenshaw (L (v + 1)))) = _
      rw [hgroups, ih smaller _ rfl (by simp), smaller.map_labelled_range hterms]
      exact congrArg Except.ok (sum_filter_key _ _ hkeys)

theorem GradedBasis.sum_eq (L : Nat → AddMonoid.End V) (b : GradedBasis) (cs : List V)
    (h : cs.length = b.size) :
    b.sum (fun v c => L v c) cs
      = .ok ((b.labelled cs).map fun x => tensorMap L 0 x.1 x.2).sum :=
  sumFrom_eq L (b.nvar - 1) b cs (Nat.sub_add_cancel b.admissible.nvar_pos).symm h

end TensorChebyshev
