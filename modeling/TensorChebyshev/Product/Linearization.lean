import TensorChebyshev.Index.Tuple

/-!
Products of basis functions. In one variable `T_a T_b` is the mean of `T_{a+b}` and `T_{|a-b|}`,
and just `T_{a+b}` when `a` or `b` is zero. A tensor product therefore multiplies out into
`2 ^ m` terms of weight `2 ^ -m`, where `m` counts the variables in which both exponents are
positive; terms beyond the truncation degree are dropped. The product is symmetric, so rows are
kept for `i ≤ j` only, one after the other in a triangle.
-/

namespace TensorChebyshev

/-- A product of two basis functions: the positions of its terms, and how often their common
weight is halved. -/
structure ProductRow where
  terms : List Nat
  halvings : Nat
  deriving DecidableEq, Repr

/-- The number of variables in which both exponents are positive. -/
def splits : Tuple → Tuple → Nat
  | x :: a, y :: b => (if x = 0 ∨ y = 0 then 0 else 1) + splits a b
  | _, _ => 0

/-- The distance between two exponents. -/
def distance (x y : Nat) : Nat := (x - y) + (y - x)

/-- The exponent tuples of all terms of a product. Each choice in the later variables is met
with the sum of the first exponents and then with their distance, so of the variables with two
choices the first one changes fastest. -/
def branches : Tuple → Tuple → List Tuple
  | x :: a, y :: b =>
    let rest := branches a b
    if x = 0 ∨ y = 0 then rest.map ((x + y) :: ·)
    else rest.flatMap fun others => [(x + y) :: others, distance x y :: others]
  | _, _ => [[]]

namespace ProductRow

/-- The product of two basis functions up to `degree`. -/
def ofTuples (nvar degree : Nat) (a b : Tuple) : ProductRow :=
  ⟨(branches a b).filterMap (rank? nvar degree), splits a b⟩

end ProductRow

/-- The place of the pair `lo ≤ hi` in the triangle. -/
def slot (lo hi : Nat) : Nat := hi * (hi + 1) / 2 + lo

/-- The rows of all pairs `i ≤ j`, by `j` and then by `i`. -/
def productRows (nvar degree : Nat) (tuples : Array Tuple) : Array ProductRow :=
  (Array.ofFn fun j : Fin tuples.size =>
    Array.ofFn fun i : Fin (j.val + 1) =>
      have : i.val < tuples.size := Nat.lt_of_lt_of_le i.isLt j.isLt
      ProductRow.ofTuples nvar degree tuples[i.val] tuples[j]).flatten

end TensorChebyshev
