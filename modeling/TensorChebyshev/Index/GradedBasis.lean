import TensorChebyshev.Stored
import TensorChebyshev.Index.Tuple
import TensorChebyshev.Index.Error

/-!
The graded basis of `nvar` variables up to a total degree: the tensor products of Chebyshev
polynomials numbered by their exponent tuples. A basis exists exactly for the admissible
numbers of variables and degrees, and these two determine it.
-/

namespace TensorChebyshev

/-- The tuples can be numbered by half words, and all their exponents by words. -/
def numberable (nvar degree : Nat) : Bool :=
  (count? nvar degree).any fun n => n < halfWordBound && n * nvar < wordBound

/-- The numbers of variables and degrees for which there is a basis. -/
structure Admissible (nvar degree : Nat) : Prop where
  nvar_pos : 0 < nvar
  degree_le : degree ≤ maxDegree
  numberable : numberable nvar degree = true

/-- A numbered basis. The tuples and the exponents one after the other are kept once listed. -/
structure GradedBasis where
  nvar : Nat
  degree : Nat
  admissible : Admissible nvar degree
  listed : Stored (graded nvar degree).toArray
  rowMajor : Stored (graded nvar degree).flatten.toArray

namespace GradedBasis

/-- The basis of admissible numbers. -/
def ofAdmissible {nvar degree : Nat} (h : Admissible nvar degree) : GradedBasis where
  nvar := nvar
  degree := degree
  admissible := h
  listed := Stored.delay fun _ => (graded nvar degree).toArray
  rowMajor := Stored.delay fun _ => (graded nvar degree).flatten.toArray

/-- The basis for `nvar` variables and `degree`, or the first reason against it. -/
def build (nvar degree : Nat) : Except IndexError GradedBasis :=
  if hv : nvar = 0 then .error .noVariables
  else if hd : maxDegree < degree then .error (.degreeTooHigh degree)
  else if hn : numberable nvar degree then
    .ok (ofAdmissible ⟨Nat.pos_of_ne_zero hv, Nat.le_of_not_lt hd, hn⟩)
  else .error (.tooManyFunctions nvar degree)

variable (b : GradedBasis)

def tuples : Array Tuple := b.listed.get

def size : Nat := b.tuples.size

def rank? (t : Tuple) : Option Nat := TensorChebyshev.rank? b.nvar b.degree t

/-- The degree of the basis function at position `i`. -/
def degreeAt? (i : Nat) : Option Nat := b.tuples[i]?.map totalDegree

/-- How much degree the basis function at position `i` leaves for further variables. -/
def slackAt? (i : Nat) : Option Nat := (b.degreeAt? i).map (b.degree - ·)

def lastAt? (i : Nat) : Option Nat := b.tuples[i]?.bind List.getLast?

/-- The position, in the basis without the last variable, of the tuple at `i` without its last
exponent. With a single variable there is no such basis. -/
def parent? (i : Nat) : Option Nat :=
  if 1 < b.nvar then
    b.tuples[i]?.bind fun t => TensorChebyshev.rank? (b.nvar - 1) b.degree t.dropLast
  else none

/-- The positions of total degree exactly `d`, as first and one past the last; beyond the
truncation degree the empty block at the end. -/
def block (d : Nat) : Nat × Nat :=
  if d ≤ b.degree then (below b.nvar d, below b.nvar (d + 1)) else (b.size, b.size)

@[simp] theorem tuples_eq : b.tuples = (graded b.nvar b.degree).toArray := b.listed.get_eq

theorem size_eq : b.size = (graded b.nvar b.degree).length := by simp [size]

theorem size_pos : 0 < b.size := by
  rw [size_eq]
  exact length_graded_pos _ _

/-- The size depends on the number of variables and the degree only. -/
theorem size_congr {b c : GradedBasis} (h : b.nvar = c.nvar ∧ b.degree = c.degree) :
    b.size = c.size := by
  rw [size_eq, size_eq, h.1, h.2]

/-- Number of variables and degree determine the basis. -/
theorem ext_of {b c : GradedBasis} (hv : b.nvar = c.nvar) (hd : b.degree = c.degree) :
    b = c := by
  obtain ⟨n, d, _, l, r⟩ := b
  obtain ⟨m, e, _, l', r'⟩ := c
  subst hv hd
  rw [Subsingleton.elim l l', Subsingleton.elim r r']

end GradedBasis

end TensorChebyshev
