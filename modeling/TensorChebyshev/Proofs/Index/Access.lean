import TensorChebyshev.Proofs.Index.Positions

/-!
# Access by words

Inside the basis every access by a word answers, and answers what stands at the
position. Beyond it degrees are refused, and so are exponents as long as numbers
that do not fit a word are refused. If such numbers wrap around instead, the
addresses of far positions come back among the cells: from two variables on some
position beyond the basis is answered.
-/

namespace TensorChebyshev.GradedBasis

variable (b : GradedBasis)

/-! ## Inside the basis -/

theorem lastAtWord?_of_lt (o : Overflow) (i : UInt64) (h : i.toNat < b.size) :
    b.lastAtWord? o i = b.lastAt? i.toNat := by
  have hrows : ∀ t ∈ graded b.nvar b.degree, t.length = b.nvar := fun t ht =>
    b.length_of_mem ht
  have hi : i.toNat < (graded b.nvar b.degree).length := by rwa [← size_eq]
  obtain ⟨n, hn⟩ := Nat.exists_eq_succ_of_ne_zero b.admissible.nvar_pos.ne'
  have hstop : (i.toNat + 1) * b.nvar = i.toNat * b.nvar + n + 1 := by
    rw [Nat.succ_mul, hn, Nat.add_assoc]
  have hlast : o.before? (i.toNat * b.nvar + n + 1) = some (i.toNat * b.nvar + n) := by
    cases o <;> rfl
  -- the last of the cells of a row is the last entry of its tuple
  have hrow := drop_take_flatten hrows hi
  have hlen : ((graded b.nvar b.degree)[i.toNat]).length - 1 = n := by
    rw [hrows _ (List.getElem_mem hi), hn, Nat.succ_sub_one]
  rw [lastAtWord?, b.stop?_of_lt o h, hstop]
  simp only [Option.bind_eq_bind, Option.bind_some, hlast]
  rw [lastAt?, tuples_getElem?, List.getElem?_eq_getElem hi, Option.bind_some,
    List.getLast?_eq_getElem?, hlen, ← hrow, List.getElem?_take_of_lt (by omega),
    List.getElem?_drop, cells_eq, List.getElem?_toArray]

theorem exists_last_of_lt {i : Nat} (h : i < b.size) : ∃ e, b.lastAt? i = some e := by
  have hget : b.tuples[i]? = some b.tuples[i] := Array.getElem?_eq_getElem h
  have hne : b.tuples[i] ≠ [] := by
    intro hnil
    have hlen := (b.mem_of_getElem? hget).1
    rw [hnil] at hlen
    exact b.admissible.nvar_pos.ne hlen
  refine ⟨b.tuples[i].getLast hne, ?_⟩
  rw [lastAt?, hget, Option.bind_some, List.getLast?_eq_some_getLast hne]

/-! ## Beyond the basis -/

variable {b} {i : UInt64}

theorem degreeAtWord?_of_le (h : b.size ≤ i.toNat) : b.degreeAtWord? i = none := by
  have hnone : b.tuples[i.toNat]? = none := Array.getElem?_eq_none h
  rw [degreeAtWord?, degreeAt?, hnone, Option.map_none]

theorem slackAtWord?_of_le (h : b.size ≤ i.toNat) : b.slackAtWord? i = none := by
  have hnone := degreeAtWord?_of_le h
  rw [degreeAtWord?] at hnone
  rw [slackAtWord?, slackAt?, hnone, Option.map_none]

/-- An address after the cells of a position beyond the basis is refused, or it lies
beyond the cells. -/
theorem stop?_fault_of_le (h : b.size ≤ i.toNat) {stop : Nat}
    (hstop : b.stop? .fault i.toNat = some stop) : b.cells.size + b.nvar ≤ stop := by
  rw [stop?, Option.bind_eq_some_iff] at hstop
  obtain ⟨next, hnext, hstop⟩ := hstop
  rw [Overflow.word?, Option.ite_none_right_eq_some] at hnext
  rw [start?, Overflow.word?, Option.ite_none_right_eq_some] at hstop
  obtain ⟨-, hnext⟩ := hnext
  obtain ⟨-, hstop⟩ := hstop
  have hmul := Nat.mul_le_mul_right b.nvar (Nat.succ_le_succ h)
  rw [size_cells, ← Nat.succ_mul, ← Option.some.inj hstop, ← Option.some.inj hnext]
  exact hmul

theorem tupleAtWord?_fault_of_le (h : b.size ≤ i.toNat) : b.tupleAtWord? .fault i = none := by
  have hpos := b.admissible.nvar_pos
  rw [tupleAtWord?]
  cases hstart : b.start? .fault i.toNat with
  | none => rfl
  | some start =>
      cases hstop : b.stop? .fault i.toNat with
      | none => rfl
      | some stop =>
          have := stop?_fault_of_le h hstop
          exact if_neg (by omega)

theorem lastAtWord?_fault_of_le (h : b.size ≤ i.toNat) : b.lastAtWord? .fault i = none := by
  have hpos := b.admissible.nvar_pos
  rw [lastAtWord?]
  cases hstop : b.stop? .fault i.toNat with
  | none => rfl
  | some stop =>
      have hbeyond := stop?_fault_of_le h hstop
      obtain ⟨last, rfl⟩ := Nat.exists_eq_succ_of_ne_zero (n := stop) (by omega)
      exact Array.getElem?_eq_none (by omega)

/-! ## Wrapped addresses -/

theorem start?_wrap (i : Nat) : b.start? .wrap i = some (i * b.nvar % wordBound) := rfl

theorem stop?_wrap (i : Nat) : b.stop? .wrap i = some ((i + 1) * b.nvar % wordBound) := by
  show some ((i + 1) % wordBound * b.nvar % wordBound) = _
  rw [Nat.mod_mul_mod]

theorem cells_size_lt : b.cells.size < wordBound := by
  rw [size_cells]
  exact b.cells_lt_wordBound

theorem nvar_le_cells_size : b.nvar ≤ b.cells.size := by
  rw [size_cells]
  exact Nat.le_mul_of_pos_left _ b.size_pos

/-- **Wrapped cells**: a position is answered as soon as as many cells as there are variables
follow the address that is left of its own. -/
theorem tupleAtWord?_wrap (i : UInt64) :
    b.tupleAtWord? .wrap i
      = if i.toNat * b.nvar % wordBound + b.nvar ≤ b.cells.size then
          some (b.cells.extract (i.toNat * b.nvar % wordBound)
            (i.toNat * b.nvar % wordBound + b.nvar)).toList
        else none := by
  have hcells := cells_size_lt (b := b)
  have hnvar := nvar_le_cells_size (b := b)
  let start := i.toNat * b.nvar % wordBound
  have hstart : start < wordBound := Nat.mod_lt _ (by decide)
  have hstop : (i.toNat + 1) * b.nvar % wordBound = (start + b.nvar) % wordBound := by
    rw [Nat.succ_mul, Nat.mod_add_mod]
  rw [tupleAtWord?, start?_wrap, stop?_wrap, hstop]
  show (if start ≤ (start + b.nvar) % wordBound ∧ (start + b.nvar) % wordBound ≤ b.cells.size
    then some (b.cells.extract start ((start + b.nvar) % wordBound)).toList else none) = _
  rcases Nat.lt_or_ge (start + b.nvar) wordBound with hfits | hwraps
  · rw [Nat.mod_eq_of_lt hfits]
    exact if_congr (and_iff_right (Nat.le_add_right _ _)) rfl rfl
  -- an address that wraps between the first cell and the last is refused
  · have hless : (start + b.nvar) % wordBound < start := by
      rw [Nat.mod_eq_sub_mod hwraps, Nat.mod_eq_of_lt (by omega)]
      omega
    rw [if_neg fun h => Nat.not_le.mpr hless h.1, if_neg (by omega)]

/-- A position is answered with the cell before the address that is left of the next one,
unless nothing is left of it. -/
theorem lastAtWord?_wrap (i : UInt64) :
    b.lastAtWord? .wrap i
      = if (i.toNat + 1) * b.nvar % wordBound = 0 then none
        else b.cells[(i.toNat + 1) * b.nvar % wordBound - 1]? := by
  have hcells := cells_size_lt (b := b)
  rw [lastAtWord?, stop?_wrap]
  show ((Overflow.wrap.before? ((i.toNat + 1) * b.nvar % wordBound)).bind fun last =>
    b.cells[last]?) = _
  cases (i.toNat + 1) * b.nvar % wordBound with
  | zero =>
      rw [if_pos rfl]
      exact Array.getElem?_eq_none (by omega)
  | succ last => rfl

/-- From two variables on the position `2⁶⁴ / nvar` is beyond the basis, but the address of the
next one wraps around into the cells of the first. -/
theorem exists_wrapped_last (h : 1 < b.nvar) :
    ∃ i : UInt64, b.size ≤ i.toNat ∧ (b.lastAtWord? .wrap i).isSome := by
  have hcells := b.cells_lt_wordBound
  have hpos : 0 < b.nvar := Nat.zero_lt_of_lt h
  have hword : wordBound / b.nvar < wordBound := Nat.div_lt_self (by decide) h
  have hi : (UInt64.ofNat (wordBound / b.nvar)).toNat = wordBound / b.nvar :=
    UInt64.toNat_ofNat_of_lt' hword
  have hrest := Nat.mod_lt wordBound hpos
  have hsmall := nvar_le_cells_size (b := b)
  have hlt := cells_size_lt (b := b)
  have hwrapped : (wordBound / b.nvar + 1) * b.nvar % wordBound
      = b.nvar - wordBound % b.nvar := by
    have hdiv := Nat.div_add_mod' wordBound b.nvar
    rw [Nat.succ_mul, show wordBound / b.nvar * b.nvar + b.nvar
      = b.nvar - wordBound % b.nvar + wordBound by omega, Nat.add_mod_right,
      Nat.mod_eq_of_lt (by omega)]
  refine ⟨UInt64.ofNat (wordBound / b.nvar), ?_, ?_⟩
  · rw [hi]
    exact (Nat.le_div_iff_mul_le hpos).mpr hcells.le
  · rw [lastAtWord?_wrap, hi, hwrapped, if_neg (by omega), Array.getElem?_eq_getElem (by omega)]
    rfl

/-- With a single variable an address is its position, and the last word alone wraps. -/
theorem wrap_of_nvar_eq_one (h : b.nvar = 1) (hi : b.size ≤ i.toNat) :
    b.tupleAtWord? .wrap i = none ∧ b.lastAtWord? .wrap i = none := by
  have hsize : b.cells.size = b.size := by rw [size_cells, h, Nat.mul_one]
  have hword : i.toNat < wordBound := i.toNat_lt
  constructor
  · rw [tupleAtWord?_wrap, h, Nat.mul_one, Nat.mod_eq_of_lt hword]
    exact if_neg (by omega)
  · rw [lastAtWord?_wrap, h, Nat.mul_one]
    rcases Nat.lt_or_eq_of_le (Nat.succ_le_of_lt hword) with hlt | heq
    · rw [Nat.mod_eq_of_lt hlt, if_neg (Nat.succ_ne_zero _)]
      exact Array.getElem?_eq_none (by omega)
    · rw [show i.toNat + 1 = wordBound from heq, Nat.mod_self, if_pos rfl]

/-! ## All accesses -/

/-- Every access answers, with what belongs to the tuple at the position. -/
def AnsweredAt (b : GradedBasis) (o : Overflow) (i : UInt64) : Prop :=
  ∃ (t : Tuple) (e : Nat), b.tuples[i.toNat]? = some t ∧ t.getLast? = some e ∧
    b.tupleAtWord? o i = some t ∧ b.lastAtWord? o i = some e ∧
    b.degreeAtWord? i = some (totalDegree t) ∧ b.slackAtWord? i = some (b.degree - totalDegree t)

/-- Every access is refused. -/
def RefusedAt (b : GradedBasis) (o : Overflow) (i : UInt64) : Prop :=
  b.tupleAtWord? o i = none ∧ b.lastAtWord? o i = none ∧
    b.degreeAtWord? i = none ∧ b.slackAtWord? i = none

theorem answeredAt_of_lt (o : Overflow) (h : i.toNat < b.size) : b.AnsweredAt o i := by
  obtain ⟨e, he⟩ := b.exists_last_of_lt h
  have hget : b.tuples[i.toNat]? = some b.tuples[i.toNat] := Array.getElem?_eq_getElem h
  have hdegree : b.degreeAt? i.toNat = some (totalDegree b.tuples[i.toNat]) := by
    rw [degreeAt?, hget, Option.map_some]
  refine ⟨b.tuples[i.toNat], e, hget, ?_, ?_, ?_, hdegree, ?_⟩
  · rwa [lastAt?, hget, Option.bind_some] at he
  · rw [b.tupleAtWord?_of_lt o i h, hget]
  · rw [b.lastAtWord?_of_lt o i h, he]
  · rw [slackAtWord?, slackAt?, hdegree, Option.map_some]

/-- **Access is exact where no address can wrap.** Inside the basis every access answers,
whatever becomes of numbers that do not fit a word. Beyond it every access is refused if such
numbers are; if they wrap around, this is so for the bases of a single variable and for no
others. -/
theorem access_exact (b : GradedBasis) :
    (∀ (o : Overflow) (i : UInt64), i.toNat < b.size → b.AnsweredAt o i) ∧
    (∀ i : UInt64, b.size ≤ i.toNat → b.RefusedAt .fault i) ∧
    ((∀ i : UInt64, b.size ≤ i.toNat → b.RefusedAt .wrap i) ↔ b.nvar = 1) := by
  refine ⟨fun o i h => answeredAt_of_lt o h, fun i h => ?_, fun h => ?_, fun h i hi => ?_⟩
  · exact ⟨tupleAtWord?_fault_of_le h, lastAtWord?_fault_of_le h, degreeAtWord?_of_le h,
      slackAtWord?_of_le h⟩
  · by_contra hne
    have hpos := b.admissible.nvar_pos
    obtain ⟨i, hi, hsome⟩ := exists_wrapped_last (b := b) (by omega)
    rw [(h i hi).2.1] at hsome
    cases hsome
  · obtain ⟨htuple, hlast⟩ := wrap_of_nvar_eq_one h hi
    exact ⟨htuple, hlast, degreeAtWord?_of_le hi, slackAtWord?_of_le hi⟩

/-- Two variables up to degree three have ten basis functions. Twice the position `2⁶³` is
nothing in a word, and it is answered with the constant function. -/
theorem access_wraps_cubic : ∃ b : GradedBasis, build 2 3 = .ok b ∧ b.size = 10 ∧
    b.tupleAtWord? .wrap 9223372036854775808 = some [0, 0] ∧
    b.lastAtWord? .wrap 9223372036854775808 = some 0 := by
  have hadm : Admissible 2 3 := ⟨by decide, by decide, by decide⟩
  have hcells : (ofAdmissible hadm).cells = #[0, 0, 1, 0, 0, 1, 2, 0, 1, 1, 0, 2, 3, 0, 2, 1,
      1, 2, 0, 3] := cells_eq _
  have hnvar : (ofAdmissible hadm).nvar = 2 := rfl
  have hstart : (9223372036854775808 : UInt64).toNat * 2 % wordBound = 0 := by decide
  have hstop : ((9223372036854775808 : UInt64).toNat + 1) * 2 % wordBound = 2 := by decide
  refine ⟨ofAdmissible hadm, build_of_admissible hadm, size_eq _, ?_, ?_⟩
  · rw [tupleAtWord?_wrap, hcells, hnvar, hstart]
    rfl
  · rw [lastAtWord?_wrap, hcells, hnvar, hstop]
    rfl

end TensorChebyshev.GradedBasis
