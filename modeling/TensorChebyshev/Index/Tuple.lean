import TensorChebyshev.Index.Count

/-!
Exponent tuples in graded order: smaller sums first, and among equal sums the tuple with the
larger first exponent first. `graded` lists them and `rank` counts, without the list, how many
come before a given tuple.
-/

namespace TensorChebyshev

/-- An exponent tuple: one exponent for each variable. -/
abbrev Tuple := List Nat

def totalDegree : Tuple → Nat
  | [] => 0
  | e :: rest => e + totalDegree rest

/-- The numbers `d, d - 1, …, 0`. -/
def descending : Nat → List Nat
  | 0 => [0]
  | d + 1 => (d + 1) :: descending d

/-- The tuples of `nvar` exponents with sum `d`, larger first exponents first. -/
def tuplesOfDegree : (nvar d : Nat) → List Tuple
  | 0, 0 => [[]]
  | 0, _ + 1 => []
  | nvar + 1, d =>
    (descending d).flatMap fun e => (tuplesOfDegree nvar (d - e)).map (e :: ·)

/-- The tuples of `nvar` exponents with a sum of at most `degree`, in graded order. -/
def graded (nvar degree : Nat) : List Tuple :=
  (List.range (degree + 1)).flatMap (tuplesOfDegree nvar)

/-- The place of a tuple in graded order. Each suffix contributes the number of tuples of its
length with a smaller sum: for the whole tuple these are the tuples of smaller degree, for a
proper suffix those that agree up to it with a larger exponent in front of it. -/
def rank : Tuple → Nat
  | [] => 0
  | e :: rest => below (rest.length + 1) (e + totalDegree rest) + rank rest

/-- The place of a tuple among those of `nvar` exponents up to `degree`, if it is one. -/
def rank? (nvar degree : Nat) (t : Tuple) : Option Nat :=
  if t.length = nvar ∧ totalDegree t ≤ degree then some (rank t) else none

theorem tuplesOfDegree_zero_ne_nil (nvar : Nat) : tuplesOfDegree nvar 0 ≠ [] := by
  induction nvar with
  | zero => simp [tuplesOfDegree]
  | succ n ih => simpa [tuplesOfDegree, descending] using ih

theorem graded_ne_nil (nvar degree : Nat) : graded nvar degree ≠ [] := by
  intro h
  have h0 : (0 : Nat) ∈ List.range (degree + 1) := by simp
  exact tuplesOfDegree_zero_ne_nil nvar (List.flatMap_eq_nil_iff.mp h 0 h0)

theorem length_graded_pos (nvar degree : Nat) : 0 < (graded nvar degree).length :=
  List.length_pos_iff.mpr (graded_ne_nil nvar degree)

end TensorChebyshev
