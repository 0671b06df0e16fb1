import TensorChebyshev.Proofs.Checked.Basic
import TensorChebyshev.Proofs.Expansion.Value
import TensorChebyshev.Proofs.Index.Prefix
import TensorChebyshev.Proofs.Series.Change

/-!
# Sums that may stop

The recurrence for values whose sums and differences may stop, as those of
expansions do when the shapes differ; it is the recurrence of the library, read for
computations in place of values. For several variables the coefficients are pushed
into groups by the position of their prefix in a smaller basis. If the sums of some
values do not stop then neither does a series of such values.
-/

namespace TensorChebyshev

variable {R A V : Type}

/-- Zero, sums and differences of values, any of which may stop. -/
structure Sums (R A : Type) where
  zero : Checked R A
  add : A → A → Checked R A
  sub : A → A → Checked R A

namespace Sums

/-- A value that may have stopped on the way. -/
structure Term (S : Sums R A) where
  run : Checked R A

variable {S : Sums R A}

instance : Zero S.Term := ⟨⟨S.zero⟩⟩

instance : Add S.Term := ⟨fun x y => ⟨do S.add (← x.run) (← y.run)⟩⟩

instance : Sub S.Term := ⟨fun x y => ⟨do S.sub (← x.run) (← y.run)⟩⟩

/-- The recurrence of the library for values that may stop. -/
def clenshaw (S : Sums R A) (timesX : A → Checked R A) (cs : List A) : Checked R A :=
  (TensorChebyshev.clenshaw (V := S.Term) (fun x => ⟨x.run >>= timesX⟩)
    (cs.map fun c => ⟨.ok c⟩)).run

/-! ## Groups -/

/-- Pushes every coefficient into the group of its prefix. -/
def bucket (b : GradedBasis) (count : Nat) (cs : List A) : Checked R (Array (List A)) :=
  cs.zipIdx.foldlM (fun groups c =>
    match b.parent? c.2 with
    | some p => do
      let group ← Checked.entry groups p
      Checked.replace groups p (group ++ [c.1])
    | none => return groups) (Array.replicate count [])

/-- The positions of all tuples without their last exponents. -/
def prefixes (smaller b : GradedBasis) : Checked R (List Nat) :=
  b.tuples.toList.mapM fun t =>
    match smaller.rank? t.dropLast with
    | some p => .ok p
    | none => Checked.fault (.noPrefix t)

/-- A basis with the prefixes of its tuples, which are looked up in the basis of one
variable less. -/
def table (degree : Nat) : (nvar : Nat) → Checked R GradedBasis
  | 0 => Checked.ofResult ((GradedBasis.build 0 degree).mapError .inadmissible)
  | n + 1 => do
    let b ← Checked.ofResult ((GradedBasis.build (n + 1) degree).mapError .inadmissible)
    if 0 < n then
      let smaller ← table degree n
      let _ ← prefixes smaller b
      return b
    else return b

/-- Sums over the last variable, the one before it, and so on down to the first one. -/
def sumFrom (S : Sums R A) (times : Nat → A → Checked R A) :
    (last : Nat) → GradedBasis → List A → Checked R A
  | 0, _, cs => S.clenshaw (times 0) cs
  | v + 1, b, cs => do
    let smaller ← table b.degree (v + 1)
    let groups ← bucket b smaller.size cs
    let sums ← groups.toList.mapM (S.clenshaw (times (v + 1)))
    sumFrom S times v smaller sums

def sum (S : Sums R A) (b : GradedBasis) (times : Nat → A → Checked R A) (cs : List A) :
    Checked R A :=
  S.sumFrom times (b.nvar - 1) b cs

/-! ## One variable -/

section OneVariable

variable [Zero V] [Add V] [Sub V] {φ : V → A}

/-- The values `φ v` are summed as the values `v` are, and nothing stops. -/
structure Carries (S : Sums R A) (φ : V → A) : Prop where
  zero : S.zero = .ok (φ 0)
  add : ∀ a b, S.add (φ a) (φ b) = .ok (φ (a + b))
  sub : ∀ a b, S.sub (φ a) (φ b) = .ok (φ (a - b))

theorem Carries.sumMap (h : S.Carries φ) : SumMap fun v => (⟨.ok (φ v)⟩ : S.Term) where
  map_zero := congrArg Term.mk h.zero.symm
  map_add := fun a b => congrArg Term.mk (h.add a b).symm
  map_sub := fun a b => congrArg Term.mk (h.sub a b).symm

theorem clenshaw_eq (h : S.Carries φ) {timesX : V → V} (timesX' : A → Checked R A)
    (ht : ∀ b, timesX' (φ b) = .ok (φ (timesX b))) (cs : List V) :
    S.clenshaw timesX' (cs.map φ) = .ok (φ (TensorChebyshev.clenshaw timesX cs)) := by
  have hmap := clenshaw_map h.sumMap (f := timesX) (g := fun x => ⟨x.run >>= timesX'⟩)
    (fun b => congrArg Term.mk (ht b).symm) cs
  rw [clenshaw, List.map_map]
  exact (congrArg Term.run hmap).symm

end OneVariable

/-! ## Groups and prefixes -/

/-- A prefix position is a position of the basis of one variable less. -/
theorem lt_size_of_parent? {b : GradedBasis} (smaller : GradedBasis) (hv : b.nvar = smaller.nvar + 1)
    (hd : b.degree = smaller.degree) {i p : Nat} (h : b.parent? i = some p) :
    p < smaller.size := by
  rw [GradedBasis.parent?] at h
  split at h
  · obtain ⟨t, -, ht⟩ := Option.bind_eq_some_iff.mp h
    rw [hv, hd, Nat.add_sub_cancel] at ht
    exact (Array.getElem?_eq_some_iff.mp (smaller.rank?_eq_some_iff.mp ht)).1
  · cases h

section Groups

variable {b : GradedBasis} {count : Nat}

/-- One step of the loop on groups that are all there. -/
def push (b : GradedBasis) (groups : Vector (List A) count) (c : A × Nat) :
    Vector (List A) count :=
  groups.mapIdx fun p group => if b.parent? c.2 = some p then group ++ [c.1] else group

theorem getElem_foldl_push (l : List (A × Nat)) (groups : Vector (List A) count) {p : Nat}
    (hp : p < count) :
    (l.foldl (push b) groups)[p]
      = groups[p] ++ (l.filter fun c => b.parent? c.2 == some p).map Prod.fst := by
  induction l generalizing groups with
  | nil => simp
  | cons c l ih =>
      rw [List.foldl_cons, ih, push, Vector.getElem_mapIdx]
      by_cases h : b.parent? c.2 = some p
      · simp [h]
      · simp [h]

theorem set_eq_push {groups : Vector (List A) count} {c : A × Nat} {p : Nat}
    (h : b.parent? c.2 = some p) (hp : p < count) :
    groups.set p (groups[p] ++ [c.1]) = push b groups c := by
  refine Vector.ext fun q hq => ?_
  rw [push, Vector.getElem_mapIdx, Vector.getElem_set, h]
  by_cases hpq : p = q
  · subst hpq
    rw [if_pos rfl, if_pos rfl]
  · rw [if_neg hpq, if_neg fun he => hpq (Option.some.inj he)]

theorem push_of_none {groups : Vector (List A) count} {c : A × Nat} (h : b.parent? c.2 = none) :
    push b groups c = groups := by
  refine Vector.ext fun q hq => ?_
  rw [push, Vector.getElem_mapIdx, h, if_neg (by simp)]

/-- **No coefficient falls outside the groups**, and the groups are those of the
library. -/
theorem bucket_eq (cs : List A) (h : ∀ i < cs.length, ∀ p, b.parent? i = some p → p < count) :
    (bucket b count cs : Checked R _) = .ok (b.groups count cs).toArray := by
  let pushed := cs.zipIdx.foldl (push b) (Vector.replicate count [])
  have hloop : (bucket b count cs : Checked R _) = .ok pushed.toArray := by
    refine Checked.foldlM_eq Vector.toArray (fun c hc groups => ?_) (Vector.replicate count [])
    have hi : c.2 < cs.length := by simpa using (List.mem_zipIdx hc).2.1
    cases hparent : b.parent? c.2 with
    | none => rw [push_of_none hparent, Checked.pure_eq_ok]
    | some p =>
        have hp := h c.2 hi p hparent
        show (Checked.entry groups.toArray p >>= fun group =>
          Checked.replace groups.toArray p (group ++ [c.1])) = _
        rw [Checked.entry_toArray groups hp, Checked.ok_bind, Checked.replace_toArray groups hp,
          set_eq_push hparent hp]
  have hgroups : pushed.toList = b.groups count cs := by
    refine List.ext_getElem (by simp [GradedBasis.groups]) fun p hp _ => ?_
    rw [Vector.length_toList] at hp
    rw [Vector.getElem_toList, getElem_foldl_push _ _ hp, Vector.getElem_replicate, List.nil_append]
    simp [GradedBasis.groups, List.filter_map, Function.comp_def]
  rw [hloop, ← hgroups, Vector.toList, Array.toArray_toList]

end Groups

section Tables

variable {n degree : Nat}

/-- **Every tuple has its prefix in the smaller basis**, and the positions of the prefixes
are the parents. -/
theorem prefixes_ok {b : GradedBasis} (smaller : GradedBasis) (hv : b.nvar = smaller.nvar + 1)
    (hd : b.degree = smaller.degree) :
    ∃ ps, (prefixes smaller b : Checked R _) = .ok ps ∧ ∀ i : Nat, ps[i]? = b.parent? i := by
  have hrank : ∀ t ∈ b.tuples.toList, smaller.rank? t.dropLast
      = some (TensorChebyshev.rank t.dropLast) := by
    intro t ht
    rw [GradedBasis.tuples_eq, hv, hd] at ht
    rw [GradedBasis.rank?, rank?, if_pos (mem_graded.mp (dropLast_mem_graded ht))]
  refine ⟨b.tuples.toList.map fun t => TensorChebyshev.rank t.dropLast,
    Expansion.mapM_eq_ok fun t ht => by rw [hrank t ht], fun i => ?_⟩
  rw [List.getElem?_map, Array.getElem?_toList]
  cases hget : b.tuples[i]? with
  | none => rw [GradedBasis.parent?, hget, Option.bind_none, ite_self, Option.map_none]
  | some t =>
      rw [GradedBasis.parent?_eq hv smaller.admissible.nvar_pos hget, Option.map_some]

/-- **A table is made exactly when there is a basis.** -/
theorem table_eq (degree n : Nat) :
    (table degree n : Checked R _)
      = Checked.ofResult ((GradedBasis.build n degree).mapError .inadmissible) := by
  induction n with
  | zero => rfl
  | succ n ih =>
      rw [table]
      cases hb : GradedBasis.build (n + 1) degree with
      | error cause => rfl
      | ok b =>
          obtain ⟨hv, hd⟩ := GradedBasis.numbers_of_build hb
          show (if 0 < n then _ else _) = _
          by_cases hn : 0 < n
          · have hadm : Admissible n degree := by
              have := b.admissible
              rw [hv, hd] at this
              exact this.mono hn (Nat.le_succ n) (Nat.le_refl _)
            obtain ⟨ps, hps, -⟩ := prefixes_ok (R := R) (b := b)
              (GradedBasis.ofAdmissible hadm) hv hd
            rw [if_pos hn, ih, GradedBasis.build_of_admissible hadm]
            show (prefixes (GradedBasis.ofAdmissible hadm) b >>= _) = _
            rw [hps]
            rfl
          · rw [if_neg hn]
            rfl

end Tables

/-! ## Several variables -/

section Nested

variable [Zero V] [Add V] [Sub V] {φ : V → A}

/-- **A nested sum of values that do not stop does not stop.** By induction on the
number of variables: the smaller basis is there, every coefficient finds its group,
and the sums of the groups are values again. -/
theorem sumFrom_eq (h : S.Carries φ) {times : Nat → V → V} {times' : Nat → A → Checked R A}
    {last : Nat} (ht : ∀ v ≤ last, ∀ b, times' v (φ b) = .ok (φ (times v b))) (b : GradedBasis)
    (hv : b.nvar = last + 1) (cs : List V) :
    S.sumFrom times' last b (cs.map φ)
      = Checked.ofResult (((b.sumFrom times last cs).map φ).mapError .inadmissible) := by
  induction last generalizing b cs with
  | zero => exact clenshaw_eq h _ (ht 0 (Nat.le_refl 0)) cs
  | succ v ih =>
      have hadm : Admissible (v + 1) b.degree :=
        b.admissible.mono (Nat.succ_pos v) (by omega) (Nat.le_refl _)
      let smaller := GradedBasis.ofAdmissible hadm
      have hbuild : GradedBasis.build (v + 1) b.degree = .ok smaller :=
        GradedBasis.build_of_admissible hadm
      have hgroups : (bucket b smaller.size (cs.map φ) : Checked R _)
          = .ok ((b.groups smaller.size cs).map (List.map φ)).toArray := by
        have hparent : ∀ i < (cs.map φ).length, ∀ p, b.parent? i = some p → p < smaller.size :=
          fun i _ p hp => lt_size_of_parent? smaller hv rfl hp
        rw [bucket_eq _ hparent, GradedBasis.groups_map]
      have hsums : ((b.groups smaller.size cs).map (List.map φ)).mapM (S.clenshaw (times' (v + 1)))
          = .ok (((b.groups smaller.size cs).map
              (TensorChebyshev.clenshaw (times (v + 1)))).map φ) := by
        rw [List.mapM_map, List.map_map]
        exact Expansion.mapM_eq_ok fun group _ => clenshaw_eq h _ (ht (v + 1) (Nat.le_refl _)) group
      rw [sumFrom, table_eq, hbuild, GradedBasis.sumFrom, hbuild]
      show (bucket b smaller.size (cs.map φ) >>= _) = _
      rw [hgroups, Checked.ok_bind, hsums, Checked.ok_bind]
      exact ih (fun w hw => ht w (Nat.le_succ_of_le hw)) smaller rfl _

theorem sum_eq (h : S.Carries φ) {times : Nat → V → V} {times' : Nat → A → Checked R A}
    (b : GradedBasis) (ht : ∀ v < b.nvar, ∀ c, times' v (φ c) = .ok (φ (times v c)))
    (cs : List V) :
    S.sum b times' (cs.map φ)
      = Checked.ofResult (((b.sum times cs).map φ).mapError .inadmissible) := by
  have hpos := b.admissible.nvar_pos
  exact sumFrom_eq h (fun v hv => ht v (by omega)) b (Nat.sub_add_cancel hpos).symm cs

end Nested

end Sums

end TensorChebyshev
