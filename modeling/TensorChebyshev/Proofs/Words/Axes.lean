import Mathlib
import TensorChebyshev.Proofs.Product.Transform
import TensorChebyshev.Proofs.Words.Lines

/-!
# Strides of a grid

On a grid with `p` nodes on each axis the stride of an axis is a power of `p`.
Offsets are summed and axes are visited with a stride that runs along; it never
exceeds the number of points, and the axes one after the other, each line by line
in place, give the transform along all of them.
-/

namespace TensorChebyshev

variable {T : Type} {p : Nat}

/-! ## Offsets -/

/-- Adds an exponent to an offset and moves the stride on. -/
def offsetStep? (size p : Nat) (x : Nat × Nat) (e : Nat) : Option (Nat × Nat) := do
  let term ← fit? (size + 1) (e * x.2)
  let offset ← fit? (size + 1) (x.1 + term)
  let stride ← fit? (size + 1) (x.2 * p)
  return (offset, stride)

/-- The offset of a tuple, where no number exceeds the size. -/
def offset? (size p : Nat) (t : Tuple) : Option Nat :=
  (t.foldlM (offsetStep? size p) (0, 1)).map Prod.fst

theorem gridSize_eq_pow (p n : Nat) : gridSize p n = p ^ n := by
  induction n with
  | zero => rfl
  | succ n ih => rw [gridSize, ih, pow_succ]

theorem gridSize_pos (hp : 0 < p) (n : Nat) : 0 < gridSize p n := by
  rw [gridSize_eq_pow]
  exact Nat.pow_pos hp

theorem foldlM_offsetStep? {size : Nat} {t : Tuple} (hp : 0 < p) (hfits : Tuple.Fits p t)
    {offset stride : Nat} (hoffset : offset < stride)
    (hsize : stride * gridSize p t.length ≤ size) :
    t.foldlM (offsetStep? size p) (offset, stride)
      = some (offset + stride * gridOffset p t, stride * gridSize p t.length) := by
  induction t generalizing offset stride with
  | nil => simp [gridOffset, gridSize]
  | cons e t ih =>
      obtain ⟨he, hfits⟩ := hfits.cons
      have hterm : (e + 1) * stride ≤ p * stride := Nat.mul_le_mul_right _ he
      have hsize : stride * p * gridSize p t.length ≤ size := by
        calc stride * p * gridSize p t.length
            = stride * gridSize p (e :: t).length := by rw [List.length_cons, gridSize]; ring
          _ ≤ size := hsize
      have hstride : stride * p ≤ size :=
        (Nat.le_mul_of_pos_right _ (gridSize_pos hp _)).trans hsize
      have hnext : offset + e * stride < stride * p := by
        rw [Nat.add_mul, Nat.one_mul, Nat.mul_comm p] at hterm
        omega
      have hstep : offsetStep? size p (offset, stride) e
          = some (offset + e * stride, stride * p) := by
        rw [offsetStep?]
        dsimp only
        rw [fit?_of_lt (by omega), Option.bind_eq_bind, Option.bind_some, fit?_of_lt (by omega),
          Option.bind_some, fit?_of_lt (by omega)]
        rfl
      rw [List.foldlM_cons, hstep, Option.bind_eq_bind, Option.bind_some, ih hfits hnext hsize,
        gridOffset, List.length_cons, gridSize]
      congr 2 <;> ring

theorem offset?_eq {n : Nat} {t : Tuple} (hp : 0 < p) (hlen : t.length = n)
    (hfits : Tuple.Fits p t) : offset? (gridSize p n) p t = some (gridOffset p t) := by
  have hsize : 1 * gridSize p t.length ≤ gridSize p n := by rw [hlen, Nat.one_mul]
  have hrun := foldlM_offsetStep? hp hfits Nat.zero_lt_one hsize
  rw [offset?, hrun, Option.map_some, Nat.zero_add, Nat.one_mul]

/-! ## Axis after axis -/

/-- Transforms the lines of `n` axes, of which the first has the given stride. -/
def axes? (f : Vector T p → Vector T p) (size : Nat) :
    (n stride : Nat) → Array T → Option (Array T)
  | 0, _, data => some data
  | n + 1, stride, data => do
    let block ← fit? (size + 1) (stride * p)
    let data ← (lineBases size p stride).foldlM (replaceLine? f stride) data
    axes? f size n block data

section Strides

variable [NeZero p] (f : Vector T p → Vector T p)

/-- The entries after `n` axes were transformed, of which the first has the given stride. -/
def alongStrides : (n stride : Nat) → (Nat → T) → Nat → T
  | 0, _, g => g
  | n + 1, stride, g => alongStrides n (stride * p) (alongStride f stride g)

theorem axes?_eq {n stride size : Nat} (hstride : 0 < stride)
    (hsize : size = stride * gridSize p n) {data : Array T} {g : Nat → T}
    (hdata : ∀ k < size, data[k]? = some (g k)) :
    ∃ out, axes? f size n stride data = some out ∧ out.size = data.size ∧
      ∀ k < size, out[k]? = some (alongStrides f n stride g k) := by
  induction n generalizing stride data g with
  | zero => exact ⟨data, rfl, rfl, hdata⟩
  | succ n ih =>
      have hblock : size = stride * p * gridSize p n := by
        rw [hsize, gridSize]
        ring
      have hfits : stride * p < size + 1 := by
        rw [hblock]
        exact Nat.lt_succ_of_le (Nat.le_mul_of_pos_right _ (gridSize_pos (NeZero.pos p) n))
      obtain ⟨mid, hfirst, hmid, hentries⟩ := foldlM_lineBases f hstride (hblock ▸ hdata)
      rw [← hblock] at hfirst hentries
      obtain ⟨out, hrun, hout, hall⟩ := ih (Nat.mul_pos hstride (NeZero.pos p)) hblock hentries
      refine ⟨out, ?_, hout.trans hmid, hall⟩
      rw [axes?, fit?_of_lt hfits, hfirst]
      exact hrun

/-! ## Columns -/

variable {f} {j : Nat}

/-- On the entries with one first digit the strides are smaller by a factor `p`. -/
theorem alongStride_column (hj : j < p) (stride : Nat) (g : Nat → T) (i : Nat) :
    alongStride f (stride * p) g (p * i + j)
      = alongStride f stride (fun i => g (p * i + j)) i := by
  have hp : 0 < p := NeZero.pos p
  have hdiv : ∀ m, (p * i + j) / (m * p) = i / m := by
    intro m
    rw [Nat.mul_comm m p, ← Nat.div_div_eq_div_mul, Nat.mul_add_div hp, Nat.div_eq_of_lt hj,
      Nat.add_zero]
  have hmod : (p * i + j) % (stride * p) = p * (i % stride) + j := by
    rw [Nat.mul_comm stride p, Nat.mod_mul, Nat.mul_add_mod, Nat.mod_eq_of_lt hj,
      Nat.mul_add_div hp, Nat.div_eq_of_lt hj, Nat.add_zero, Nat.add_comm]
  have hstart : startOf p (stride * p) (p * i + j) = p * startOf p stride i + j := by
    rw [startOf, startOf, hdiv, hmod]
    ring
  have hline : lineOf g p (stride * p) (startOf p (stride * p) (p * i + j))
      = lineOf (fun i => g (p * i + j)) p stride (startOf p stride i) := by
    rw [lineOf, lineOf, hstart]
    congr 1
    funext l
    congr 1
    ring
  rw [alongStride, alongStride, hline, hdiv]

theorem alongStrides_column (hj : j < p) (n stride : Nat) (g : Nat → T) (i : Nat) :
    alongStrides f n (stride * p) g (p * i + j)
      = alongStrides f n stride (fun i => g (p * i + j)) i := by
  induction n generalizing stride g with
  | zero => rfl
  | succ n ih =>
      rw [alongStrides, ih, alongStrides]
      congr 1
      funext i
      exact alongStride_column hj stride g i

/-- The lines of the first axis are the rows. -/
theorem alongStride_one {n : Nat} {data : Vector T (gridSize p (n + 1))} {g : Nat → T}
    (hg : ∀ k : Fin (gridSize p (n + 1)), g k = data.get k) (j : Fin p)
    (i : Fin (gridSize p n)) :
    alongStride f 1 g (p * i + j) = (mappedColumn f data.get j).get i := by
  have hstart : startOf p 1 (p * i + j) = p * i := by
    rw [startOf, Nat.one_mul, Nat.mul_add_div (NeZero.pos p), Nat.div_eq_of_lt j.isLt, Nat.mod_one,
      Nat.add_zero, Nat.add_zero]
  have hline : lineOf g p 1 (p * i) = Vector.ofFn fun l => data.get (place i l) := by
    rw [lineOf]
    congr 1
    funext l
    rw [← hg, place_val, Nat.mul_one, Nat.mul_comm, Nat.add_comm]
  have hplace : Fin.ofNat p ((p * i + j) / 1) = j := by
    refine Fin.ext ?_
    show (p * i + j) / 1 % p = j
    rw [Nat.div_one, Nat.mul_add_mod, Nat.mod_eq_of_lt j.isLt]
  rw [alongStride, hstart, hline, hplace, get_mappedColumn]

/-- **The axes one after the other are the transform along all axes**: by induction on their
number, where the axes after the first one are those of each column. -/
theorem alongStrides_eq_alongAxes {n : Nat} {data : Vector T (gridSize p n)} {g : Nat → T}
    (hg : ∀ k : Fin (gridSize p n), g k = data.get k) (k : Fin (gridSize p n)) :
    alongStrides f n 1 g k = (alongAxes f n data).get k := by
  induction n generalizing g with
  | zero => exact hg k
  | succ n ih =>
      have hmod : k.val % p < p := Nat.mod_lt _ (NeZero.pos p)
      have hdiv : k.val / p < gridSize p n := (Nat.div_lt_iff_lt_mul (NeZero.pos p)).mpr k.isLt
      calc alongStrides f (n + 1) 1 g k
          = alongStrides f n (1 * p) (alongStride f 1 g) (p * (k / p) + k % p) := by
            rw [Nat.div_add_mod]
            rfl
        _ = alongStrides f n 1 (fun i => alongStride f 1 g (p * i + k % p)) (k / p) :=
            alongStrides_column hmod ..
        _ = (alongAxes f n (mappedColumn f data.get ⟨k % p, hmod⟩)).get ⟨k / p, hdiv⟩ :=
            ih (alongStride_one hg ⟨k % p, hmod⟩) ⟨k / p, hdiv⟩
        _ = (alongAxes f (n + 1) data).get k := (get_alongAxes_succ f data k hmod hdiv).symm

/-- The entries of a tensor as a function of all places. -/
theorem exists_entries {n : Nat} (data : Vector T (gridSize p n)) :
    ∃ g : Nat → T, ∀ k : Fin (gridSize p n), g k = data.get k := by
  let first := data.get ⟨0, gridSize_pos (NeZero.pos p) n⟩
  refine ⟨fun k => (data[k]?).getD first, fun k => ?_⟩
  show (data[k.val]?).getD first = data.get k
  rw [Vector.getElem?_eq_getElem k.isLt, Option.getD_some]
  rfl

/-- **In place, no stride exceeds the size and every entry is there.** -/
theorem axes?_toArray (n : Nat) (data : Vector T (gridSize p n)) :
    axes? f (gridSize p n) n 1 data.toArray = some (alongAxes f n data).toArray := by
  have hentry : ∀ (v : Vector T (gridSize p n)) (k : Fin (gridSize p n)),
      v.toArray[k.val]? = some (v.get k) := by
    intro v k
    rw [Vector.getElem?_toArray, Vector.getElem?_eq_getElem k.isLt]
    rfl
  obtain ⟨g, hg⟩ := exists_entries data
  obtain ⟨out, hrun, hsize, hentries⟩ := axes?_eq f Nat.one_pos (Nat.one_mul (gridSize p n)).symm
    fun k hk => (hentry data ⟨k, hk⟩).trans (congrArg some (hg ⟨k, hk⟩).symm)
  rw [hrun]
  refine congrArg some (Array.ext_getElem? fun k => ?_)
  by_cases hk : k < gridSize p n
  · rw [hentries k hk, alongStrides_eq_alongAxes hg ⟨k, hk⟩]
    exact (hentry _ ⟨k, hk⟩).symm
  · have hout : out.size ≤ k := by simpa [hsize] using hk
    have hall : (alongAxes f n data).toArray.size ≤ k := by simpa using hk
    rw [Array.getElem?_eq_none hout, Array.getElem?_eq_none hall]

end Strides

end TensorChebyshev
