import TensorChebyshev.Fourier.Sum

/-!
Fourier transforms of composite length by two shorter ones. The entries are written into a table,
the columns are transformed, then the rows, and the results are read off. In a table that is
written row by row, each entry is multiplied by a root of unity in between. If the sides of the
table are coprime, it can be written so that none are needed.

Tables are part of `FourierMethod.fast`, which runs for the machine's number types only. Theorems
about cosine transforms hold of any method that computes the defining sum.
-/

namespace TensorChebyshev

section Cells

variable {T : Type} {r l : Nat}

/-- The place of row `i`, column `k` in a table that is written row by row. -/
def cellOf (i : Fin r) (k : Fin l) : Fin (r * l) :=
  ⟨i.val * l + k.val, by
    have h : (i.val + 1) * l ≤ r * l := Nat.mul_le_mul_right l i.isLt
    have := k.isLt
    rw [Nat.add_mul, Nat.one_mul] at h
    omega⟩

/-- The place of row `i`, column `k` in a table with coprime sides: one row further are `l`
places, one column further `r`, around the end. -/
def wrappedCellOf (i : Fin r) (k : Fin l) : Fin (r * l) :=
  ⟨(i.val * l + k.val * r) % (r * l),
    Nat.mod_lt _ (Nat.mul_pos (Nat.zero_lt_of_lt i.isLt) (Nat.zero_lt_of_lt k.isLt))⟩

def mapColumns (f : Vector T r → Vector T r) (place : Fin r → Fin l → Fin (r * l))
    (x : Vector T (r * l)) : Vector (Vector T r) l :=
  Vector.ofFn fun k => f (Vector.ofFn fun i => x[place i k])

/-- Row `i` of a table of columns. -/
def rowOf (table : Vector (Vector T r) l) (i : Fin r) : Vector T l := table.map (·.get i)

/-- Reads a table of rows, with the place in the row for each entry. -/
def readRows (place : Fin (r * l) → Nat) (inRow : ∀ k, place k < l)
    (table : Vector (Vector T l) r) : Vector T (r * l) :=
  Vector.ofFn fun k =>
    have hr : 0 < r := Nat.pos_of_mul_pos_right (Nat.zero_lt_of_lt k.isLt)
    have : k.val % r < r := Nat.mod_lt _ hr
    have := inRow k
    table[k.val % r][place k]

end Cells

/-- How the roots of unity between columns and rows are applied. All agree where arithmetic is
exact, since the roots of the first column are one. -/
inductive Factors where
  /-- By multiplication in every column. -/
  | all
  /-- By multiplication in all columns but the first, where only the given rows are multiplied. -/
  | later (rows : List Nat)
  /-- With eighths of a turn taken without a complex multiplication, and the other roots made from
  those in the first quarter. -/
  | eighths

section Turns

variable {F R : Type} [RealLine R] [Scalar F R]

/-- A number after `k` quarters of a turn, clockwise. -/
def quarterTurns : Nat → Complex F → Complex F
  | 0, y => y
  | k + 1, y => quarterTurns k y.turn

/-- A number after `k` eighths of a turn, clockwise. -/
def eighthTurns (k : Nat) (y : Complex F) : Complex F :=
  let z := quarterTurns (k / 2) y
  if k % 2 = 0 then z else (z.turn + z).scale (Scalar.ofReal (RealLine.cosPi 1 4))

/-- The root of unity `exp (-2πi t / n)` from the first quarter, for `n` a multiple of four. -/
def quarterRoot (n t : Nat) : Complex F :=
  quarterTurns (4 * t / n) (unitRoot n (t - 4 * t / n * (n / 4)))

end Turns

variable {F R : Type} [RealLine R] [Scalar F R] [Fused F]

/-- The entry in column `k` times the root of unity `exp (-2πi k i / n)`. -/
def Factors.apply (factors : Factors) (n i k : Nat) (y : Complex F) : Complex F :=
  match factors with
  | .all => y.fusedMul (unitRoot n (k * i))
  | .later rows => if k = 0 ∧ i ∉ rows then y else y.fusedMul (unitRoot n (k * i))
  | .eighths =>
    if 8 * (k * i) % n = 0 then eighthTurns (8 * (k * i) / n) y
    else y.fusedMul (quarterRoot n (k * i))

/-- Columns, roots of unity, rows. Entry `k` of the transform is entry `k / r` of row `k % r`. The
first row needs no roots. -/
def gridTransform {r l : Nat} (factors : Factors)
    (columns : Vector (Complex F) r → Vector (Complex F) r)
    (rows : Vector (Complex F) l → Vector (Complex F) l)
    (x : Vector (Complex F) (r * l)) : Vector (Complex F) (r * l) :=
  let done := mapColumns columns cellOf x
  readRows (fun k => k.val / r) (fun k => Nat.div_lt_of_lt_mul k.isLt) <|
    Vector.ofFn fun i => rows <| (rowOf done i).mapIdx fun k y =>
      if i.val = 0 then y else factors.apply (r * l) i.val k y

/-- Columns and rows. Entry `k` of the transform is entry `k % l` of row `k % r`. -/
def coprimeTransform {r l : Nat}
    (columns : Vector (Complex F) r → Vector (Complex F) r)
    (rows : Vector (Complex F) l → Vector (Complex F) l)
    (x : Vector (Complex F) (r * l)) : Vector (Complex F) (r * l) :=
  let done := mapColumns columns wrappedCellOf x
  readRows (fun k => k.val % l)
    (fun k => Nat.mod_lt _ (Nat.pos_of_mul_pos_left (Nat.zero_lt_of_lt k.isLt))) <|
    Vector.ofFn fun i => rows (rowOf done i)

end TensorChebyshev
