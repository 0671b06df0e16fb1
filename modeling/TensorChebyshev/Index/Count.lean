/-!
How many basis functions there are: binomial coefficients, and the count that a machine can
represent. `count?` works in a double word and answers in a word; it gives up as soon as one
of them does not hold the number at hand.
-/

namespace TensorChebyshev

/-- The first number that does not fit a word of 64 bits. -/
def wordBound : Nat := 18446744073709551616

/-- The first number that does not fit two words. -/
def doubleWordBound : Nat := wordBound * wordBound

/-- The first number that does not fit half a word, the size of a stored position. -/
def halfWordBound : Nat := 4294967296

/-- `n` choose `k`, as the running product of `(n - i) / (i + 1)` for `i < k`. -/
def binomial (n : Nat) : Nat → Nat
  | 0 => 1
  | k + 1 => binomial n k * (n - k) / (k + 1)

/-- How many tuples of `n` exponents have a sum of at most `s`. -/
def atMost (n s : Nat) : Nat := binomial (n + s) (min n s)

/-- How many tuples of `n` exponents have a sum below `s`. -/
def below (n : Nat) : Nat → Nat
  | 0 => 0
  | s + 1 => atMost n s

/-- The running product of `(m + i) / i` over `steps` values of `i`, starting at `i` with the
value `acc`; none as soon as a product exceeds two words. -/
def runningProduct? (m : Nat) : (steps i acc : Nat) → Option Nat
  | 0, _, acc => some acc
  | steps + 1, i, acc =>
    if acc * (m + i) < doubleWordBound then
      runningProduct? m steps (i + 1) (acc * (m + i) / i)
    else none

/-- The number of tuples of `nvar` exponents with a sum of at most `degree`, if a word
holds it. -/
def count? (nvar degree : Nat) : Option Nat :=
  if nvar + degree < wordBound then
    (runningProduct? (max nvar degree) (min nvar degree) 1 1).filter (· < wordBound)
  else none

end TensorChebyshev
