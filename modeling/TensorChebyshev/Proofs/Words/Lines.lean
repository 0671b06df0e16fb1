import Mathlib
import TensorChebyshev.Proofs.Product.Tensor
import TensorChebyshev.Proofs.Words.Masks

/-!
# Lines in place

A transform along one axis replaces the lines of a tensor one after the other,
each read and written with the stride of the axis. The lines share no entry and
cover the tensor, so a line is still as it was when it is read, and in the end
every entry is that of its transformed line.
-/

namespace TensorChebyshev

variable {T : Type} {p : Nat}

/-! ## Writing -/

def replace? (data : Array T) (x : Nat × T) : Option (Array T) :=
  if h : x.1 < data.size then some (data.set x.1 x.2 h) else none

/-- Writing to distinct places that are all there. -/
theorem foldlM_replace? {l : List (Nat × T)} {data : Array T}
    (hin : ∀ x ∈ l, x.1 < data.size) (hnodup : (l.map Prod.fst).Nodup) :
    ∃ out, l.foldlM replace? data = some out ∧ out.size = data.size ∧
      (∀ x ∈ l, out[x.1]? = some x.2) ∧ ∀ k, k ∉ l.map Prod.fst → out[k]? = data[k]? := by
  induction l generalizing data with
  | nil => exact ⟨data, rfl, rfl, by simp, by simp⟩
  | cons x l ih =>
      obtain ⟨hx, hin⟩ := List.forall_mem_cons.mp hin
      obtain ⟨hnot, hnodup⟩ := List.nodup_cons.mp hnodup
      have hin : ∀ y ∈ l, y.1 < (data.set x.1 x.2).size := by simpa using hin
      obtain ⟨out, hrun, hsize, hwritten, hother⟩ := ih hin hnodup
      refine ⟨out, ?_, ?_, ?_, ?_⟩
      · rw [List.foldlM_cons, replace?, dif_pos hx, Option.bind_eq_bind, Option.bind_some, hrun]
      · rw [hsize, Array.size_set]
      · rw [List.forall_mem_cons]
        refine ⟨?_, hwritten⟩
        rw [hother x.1 hnot, Array.getElem?_set_self]
      · intro k hk
        rw [List.map_cons, List.mem_cons, not_or] at hk
        obtain ⟨hne, hk⟩ := hk
        rw [hother k hk, Array.getElem?_set_ne _ (Ne.symm hne)]

/-! ## One line -/

/-- The entries of a line. -/
def lineOf (g : Nat → T) (p stride base : Nat) : Vector T p :=
  Vector.ofFn fun j => g (base + j * stride)

/-- Replaces the line that begins at `base`. -/
def replaceLine? (f : Vector T p → Vector T p) (stride : Nat) (data : Array T) (base : Nat) :
    Option (Array T) := do
  let line ← Vector.ofFnM fun j : Fin p => data[base + j * stride]?
  ((List.finRange p).map fun j : Fin p => (base + j * stride, (f line).get j)).foldlM replace? data

/-- `k` is an entry of the line that begins at `base`. -/
def OnLine (p stride base k : Nat) : Prop := ∃ j < p, k = base + j * stride

theorem replaceLine?_eq (f : Vector T p → Vector T p) {stride : Nat} (hstride : 0 < stride)
    {data : Array T} {base : Nat} {g : Nat → T}
    (hline : ∀ k, OnLine p stride base k → data[k]? = some (g k)) :
    ∃ out, replaceLine? f stride data base = some out ∧ out.size = data.size ∧
      (∀ j : Fin p, out[base + j * stride]? = some ((f (lineOf g p stride base)).get j)) ∧
      ∀ k, ¬ OnLine p stride base k → out[k]? = data[k]? := by
  have hread : (Vector.ofFnM fun j : Fin p => data[base + j * stride]?)
      = some (lineOf g p stride base) := by
    have hentry : (fun j : Fin p => data[base + j * stride]?)
        = fun j : Fin p => (pure (g (base + j * stride)) : Option T) :=
      funext fun j => hline _ ⟨j, j.isLt, rfl⟩
    rw [hentry]
    exact Vector.ofFnM_pure
  let writes := (List.finRange p).map fun j : Fin p =>
    (base + j * stride, (f (lineOf g p stride base)).get j)
  have hplaces : writes.map Prod.fst = (List.finRange p).map fun j : Fin p => base + j * stride :=
    List.map_map
  have hin : ∀ x ∈ writes, x.1 < data.size := by
    intro x hx
    obtain ⟨j, -, rfl⟩ := List.mem_map.mp hx
    exact (Array.getElem?_eq_some_iff.mp (hline _ ⟨j, j.isLt, rfl⟩)).1
  have hnodup : (writes.map Prod.fst).Nodup := by
    rw [hplaces]
    refine (List.nodup_finRange p).map fun i j h => Fin.ext ?_
    exact Nat.eq_of_mul_eq_mul_right hstride (Nat.add_left_cancel h)
  obtain ⟨out, hrun, hsize, hwritten, hother⟩ := foldlM_replace? hin hnodup
  refine ⟨out, ?_, hsize, ?_, ?_⟩
  · rw [replaceLine?, hread, Option.bind_eq_bind, Option.bind_some]
    exact hrun
  · intro j
    exact hwritten _ (List.mem_map_of_mem (List.mem_finRange j))
  · intro k hk
    refine hother k fun hmem => hk ?_
    rw [hplaces] at hmem
    obtain ⟨j, -, rfl⟩ := List.mem_map.mp hmem
    exact ⟨j, j.isLt, rfl⟩

/-! ## All lines of an axis -/

/-- Lines without a common entry are replaced independently of each other: what a line is
replaced by was read from the data at the beginning. -/
theorem foldlM_replaceLine? (f : Vector T p → Vector T p) {stride : Nat} (hstride : 0 < stride)
    {bases : List Nat} (hapart : bases.Pairwise fun b c => ∀ k, OnLine p stride b k →
      ¬ OnLine p stride c k) {data : Array T} {g : Nat → T}
    (hlines : ∀ base ∈ bases, ∀ k, OnLine p stride base k → data[k]? = some (g k)) :
    ∃ out, bases.foldlM (replaceLine? f stride) data = some out ∧ out.size = data.size ∧
      (∀ base ∈ bases, ∀ j : Fin p,
        out[base + j * stride]? = some ((f (lineOf g p stride base)).get j)) ∧
      ∀ k, (∀ base ∈ bases, ¬ OnLine p stride base k) → out[k]? = data[k]? := by
  induction bases generalizing data with
  | nil => exact ⟨data, rfl, rfl, by simp, by simp⟩
  | cons base bases ih =>
      obtain ⟨hfirst, hapart⟩ := List.pairwise_cons.mp hapart
      obtain ⟨hline, hlines⟩ := List.forall_mem_cons.mp hlines
      obtain ⟨mid, hstep, hmid, hwritten, hother⟩ := replaceLine?_eq f hstride hline
      -- the lines that are left are still as they were
      have hleft : ∀ c ∈ bases, ∀ k, OnLine p stride c k → mid[k]? = some (g k) := by
        intro c hc k hk
        rw [hother k fun h => hfirst c hc k h hk]
        exact hlines c hc k hk
      obtain ⟨out, hrun, hout, hrest, hkept⟩ := ih hapart hleft
      refine ⟨out, ?_, hout.trans hmid, ?_, ?_⟩
      · rw [List.foldlM_cons, hstep, Option.bind_eq_bind, Option.bind_some, hrun]
      · rw [List.forall_mem_cons]
        refine ⟨fun j => ?_, hrest⟩
        rw [hkept _ fun c hc => hfirst c hc _ ⟨j, j.isLt, rfl⟩, hwritten]
      · intro k hk
        obtain ⟨hk, hks⟩ := List.forall_mem_cons.mp hk
        rw [hkept k hks, hother k hk]

/-! ## Where lines begin -/

/-- The first entries of all lines with a stride, in blocks of `stride * p` entries. -/
def lineBases (size p stride : Nat) : List Nat :=
  (List.range' 0 ((size + stride * p - 1) / (stride * p)) (stride * p)).flatMap fun outer =>
    (List.range stride).map (outer + ·)

/-- Where the line of an entry begins. -/
def startOf (p stride k : Nat) : Nat := stride * p * (k / (stride * p)) + k % stride

section Bases

variable [NeZero p] {stride q : Nat}

theorem mem_lineBases (hstride : 0 < stride) {base : Nat} :
    base ∈ lineBases (stride * p * q) p stride ↔
      ∃ outer < q, ∃ inner < stride, base = stride * p * outer + inner := by
  have hblock : 0 < stride * p := Nat.mul_pos hstride (NeZero.pos p)
  have hcount : (stride * p * q + stride * p - 1) / (stride * p) = q := by
    rw [Nat.add_sub_assoc hblock, Nat.mul_add_div hblock,
      Nat.div_eq_of_lt (Nat.sub_lt hblock Nat.one_pos), Nat.add_zero]
  rw [lineBases, hcount]
  simp only [List.mem_flatMap, List.mem_range', List.mem_map, List.mem_range, Nat.zero_add]
  constructor
  · rintro ⟨_, ⟨outer, houter, rfl⟩, inner, hinner, rfl⟩
    exact ⟨outer, houter, inner, hinner, rfl⟩
  · rintro ⟨outer, houter, inner, hinner, rfl⟩
    exact ⟨_, ⟨outer, houter, rfl⟩, inner, hinner, rfl⟩

/-- An entry tells its line and its place there. -/
theorem digits_of_entry {outer inner j : Nat} (hinner : inner < stride) (hj : j < p) :
    startOf p stride (stride * p * outer + inner + j * stride) = stride * p * outer + inner ∧
      (stride * p * outer + inner + j * stride) / stride % p = j := by
  have hstride : 0 < stride := Nat.zero_lt_of_lt hinner
  have hentry : stride * p * outer + inner + j * stride = inner + stride * (j + p * outer) := by
    ring
  have hdiv : (stride * p * outer + inner + j * stride) / stride = j + p * outer := by
    rw [hentry, Nat.add_mul_div_left _ _ hstride, Nat.div_eq_of_lt hinner, Nat.zero_add]
  constructor
  · rw [startOf, ← Nat.div_div_eq_div_mul, hdiv, Nat.add_mul_div_left _ _ (NeZero.pos p),
      Nat.div_eq_of_lt hj, Nat.zero_add, hentry, Nat.add_mul_mod_self_left,
      Nat.mod_eq_of_lt hinner]
  · rw [hdiv, Nat.add_mul_mod_self_left, Nat.mod_eq_of_lt hj]

theorem startOf_of_onLine (hstride : 0 < stride) {base k : Nat}
    (hbase : base ∈ lineBases (stride * p * q) p stride) (hk : OnLine p stride base k) :
    startOf p stride k = base := by
  obtain ⟨outer, -, inner, hinner, rfl⟩ := (mem_lineBases hstride).mp hbase
  obtain ⟨j, hj, rfl⟩ := hk
  exact (digits_of_entry hinner hj).1

/-- The lines stay inside the tensor. -/
theorem lt_of_onLine (hstride : 0 < stride) {base k : Nat}
    (hbase : base ∈ lineBases (stride * p * q) p stride) (hk : OnLine p stride base k) :
    k < stride * p * q := by
  obtain ⟨outer, houter, inner, hinner, rfl⟩ := (mem_lineBases hstride).mp hbase
  obtain ⟨j, hj, rfl⟩ := hk
  calc stride * p * outer + inner + j * stride
      < stride * p * outer + stride + j * stride := by omega
    _ = stride * (p * outer + (j + 1)) := by ring
    _ ≤ stride * (p * outer + p) := Nat.mul_le_mul_left _ (Nat.add_le_add_left hj _)
    _ = stride * p * (outer + 1) := by ring
    _ ≤ stride * p * q := Nat.mul_le_mul_left _ houter

/-- The lines cover the tensor. -/
theorem startOf_mem_lineBases (hstride : 0 < stride) {k : Nat} (hk : k < stride * p * q) :
    startOf p stride k ∈ lineBases (stride * p * q) p stride ∧
      k = startOf p stride k + k / stride % p * stride := by
  refine ⟨(mem_lineBases hstride).mpr ⟨k / (stride * p), Nat.div_lt_of_lt_mul hk, k % stride,
    Nat.mod_lt _ hstride, rfl⟩, ?_⟩
  have hinner := Nat.mod_add_div k stride
  have houter := Nat.mod_add_div (k / stride) p
  rw [startOf, ← Nat.div_div_eq_div_mul]
  calc k = k % stride + stride * (k / stride % p + p * (k / stride / p)) := by rw [houter, hinner]
    _ = _ := by ring

theorem nodup_lineBases (size : Nat) (hstride : 0 < stride) :
    (lineBases size p stride).Nodup := by
  have hblock : 0 < stride * p := Nat.mul_pos hstride (NeZero.pos p)
  have hle : stride ≤ stride * p := Nat.le_mul_of_pos_right stride (NeZero.pos p)
  refine List.nodup_flatMap.mpr ⟨fun outer _ => ?_, ?_⟩
  · exact List.nodup_range.map fun _ _ h => Nat.add_left_cancel h
  -- two blocks begin a multiple of their length apart
  · refine (List.nodup_range' _ hblock).pairwise_of_forall_ne fun b hb c hc hbc x hx hx' => hbc ?_
    obtain ⟨i, -, rfl⟩ := List.mem_range'.mp hb
    obtain ⟨j, -, rfl⟩ := List.mem_range'.mp hc
    obtain ⟨r, hr, rfl⟩ := List.mem_map.mp hx
    obtain ⟨r', hr', h⟩ := List.mem_map.mp hx'
    have hr := Nat.lt_of_lt_of_le (List.mem_range.mp hr) hle
    have hr' := Nat.lt_of_lt_of_le (List.mem_range.mp hr') hle
    have hdiv := congrArg (· / (stride * p)) h
    simp only [Nat.zero_add, Nat.mul_add_div hblock, Nat.div_eq_of_lt hr, Nat.div_eq_of_lt hr',
      Nat.add_zero] at hdiv
    rw [hdiv]

theorem pairwise_lineBases (hstride : 0 < stride) :
    (lineBases (stride * p * q) p stride).Pairwise fun b c => ∀ k, OnLine p stride b k →
      ¬ OnLine p stride c k := by
  refine (nodup_lineBases _ hstride).pairwise_of_forall_ne fun b hb c hc hbc k hkb hkc => hbc ?_
  rw [← startOf_of_onLine hstride hb hkb, startOf_of_onLine hstride hc hkc]

/-- The entries after the lines with a stride were transformed. -/
def alongStride (f : Vector T p → Vector T p) (stride : Nat) (g : Nat → T) (k : Nat) : T :=
  (f (lineOf g p stride (startOf p stride k))).get (Fin.ofNat p (k / stride))

/-- **Line by line in place, every entry becomes that of its transformed line.** -/
theorem foldlM_lineBases (f : Vector T p → Vector T p) (hstride : 0 < stride) {g : Nat → T}
    {data : Array T} (hdata : ∀ k < stride * p * q, data[k]? = some (g k)) :
    ∃ out, (lineBases (stride * p * q) p stride).foldlM (replaceLine? f stride) data = some out ∧
      out.size = data.size ∧
      ∀ k < stride * p * q, out[k]? = some (alongStride f stride g k) := by
  obtain ⟨out, hrun, hout, hwritten, -⟩ := foldlM_replaceLine? f hstride
    (pairwise_lineBases hstride) fun base hbase k hk => hdata k (lt_of_onLine hstride hbase hk)
  refine ⟨out, hrun, hout, fun k hk => ?_⟩
  obtain ⟨hbase, hplace⟩ := startOf_mem_lineBases hstride hk
  have hentry := hwritten _ hbase (Fin.ofNat p (k / stride))
  rw [show (Fin.ofNat p (k / stride)).val = k / stride % p from rfl, ← hplace] at hentry
  exact hentry

end Bases

end TensorChebyshev
