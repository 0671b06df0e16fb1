import TensorChebyshev.Index.GradedBasis

/-!
Access by machine word. The exponents of all basis functions lie one after the other in cells,
and the cells of a position are addressed by words. An address that is too large for a word is
refused or wraps around, as the chosen rule says; a wrapped address that happens to lie inside
the cells is answered, whatever position it was computed from.
-/

namespace TensorChebyshev

/-- What becomes of a number that does not fit a word. -/
inductive Overflow where
  /-- It is refused. -/
  | fault
  /-- Its low bits are kept. -/
  | wrap

namespace Overflow

def word? : Overflow → Nat → Option Nat
  | .fault, n => if n < wordBound then some n else none
  | .wrap, n => some (n % wordBound)

def before? : Overflow → Nat → Option Nat
  | _, n + 1 => some n
  | .fault, 0 => none
  | .wrap, 0 => some (wordBound - 1)

end Overflow

namespace GradedBasis

variable (b : GradedBasis) (o : Overflow)

/-- The exponents of all basis functions, one function after the other. -/
def cells : Array Nat := b.rowMajor.get

/-- The address of the first cell of position `i`. -/
def start? (i : Nat) : Option Nat := o.word? (i * b.nvar)

/-- The address after the last cell of position `i`. -/
def stop? (i : Nat) : Option Nat := (o.word? (i + 1)).bind fun next => b.start? o next

/-- The cells from the address of position `i` up to that of the next one. -/
def tupleAtWord? (i : UInt64) : Option Tuple := do
  let start ← b.start? o i.toNat
  let stop ← b.stop? o i.toNat
  if start ≤ stop ∧ stop ≤ b.cells.size then some (b.cells.extract start stop).toList else none

/-- The cell before the address of the position after `i`. -/
def lastAtWord? (i : UInt64) : Option Nat := do
  let stop ← b.stop? o i.toNat
  let last ← o.before? stop
  b.cells[last]?

def degreeAtWord? (i : UInt64) : Option Nat := b.degreeAt? i.toNat

def slackAtWord? (i : UInt64) : Option Nat := b.slackAt? i.toNat

@[simp] theorem cells_eq : b.cells = (graded b.nvar b.degree).flatten.toArray :=
  b.rowMajor.get_eq

end GradedBasis

end TensorChebyshev
