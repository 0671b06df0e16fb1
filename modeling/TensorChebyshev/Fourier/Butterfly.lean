import TensorChebyshev.Fourier.Sum

/-!
Butterflies: Fourier transforms of two, of four and of odd lengths with few multiplications. Each
says in which order its sums are taken and where it rounds, since large and undefined numbers can
tell, and exact zeros too. Equal factors are taken out of sums, and a quarter turn swaps the parts
of a number instead of multiplying it.

Butterflies are part of `FourierMethod.fast`, which runs for the machine's number types only.
Theorems about cosine transforms hold of any method that computes the defining sum.
-/

namespace TensorChebyshev

section Exact

variable {F : Type} [Arithmetic F]

def butterfly2 (x : Vector (Complex F) 2) : Vector (Complex F) 2 := #v[x[0] + x[1], x[0] - x[1]]

/-- Sums and differences of the entries two apart, then of those. -/
def butterfly4 (x : Vector (Complex F) 4) : Vector (Complex F) 4 :=
  let a := x[0] + x[2]
  let b := x[0] - x[2]
  let s := x[1] + x[3]
  let t := (x[1] - x[3]).turn
  #v[a + s, b + t, a - s, b - t]

end Exact

/-- The place of the first entry `x_0` in the sums of a transform of odd length. -/
inductive Centre where
  /-- Before everything else, and then one pair after the other, with every product rounded. -/
  | leading
  /-- Before the cosines; the sum of all entries is taken by twos and ends with it. -/
  | first
  /-- Before the cosines; the sum of all entries is taken by twos and begins with it. -/
  | opening
  /-- After cosines and sines for the given number of pairs of entries, between them for the
  other pairs; the sum of all entries is taken by twos and ends with it. -/
  | last (pairs : Nat)

/-- Adds the numbers to `start` two at a time. -/
def sumByTwos {T : Type} [Add T] (start : T) : List T → T
  | a :: b :: rest => sumByTwos (start + (a + b)) rest
  | [a] => start + a
  | [] => start

variable {F R : Type} [RealLine R] [Scalar F R] [Fused F]

/-- Three entries, with the sine's product rounded together with the last sum. -/
def butterfly3 (x : Vector (Complex F) 3) : Vector (Complex F) 3 :=
  let root : Complex F := unitRoot 3 1
  let sum := x[1] + x[2]
  let turned := (x[1] - x[2]).turnBack
  let cosine := sum.scaleAdd root.re x[0]
  #v[x[0] + sum, turned.scaleAdd root.im cosine, turned.scaleAdd (-root.im) cosine]

namespace Centre

def total (centre : Centre) (x : Complex F) (sums : List (Complex F)) : Complex F :=
  match centre with
  | .leading => sums.foldl (· + ·) x
  | .first | .last _ => sumByTwos 0 (sums ++ [x])
  | .opening => sumByTwos 0 (x :: sums)

/-- Entries, each times its weight, added to a start. -/
def weighted (centre : Centre) {h : Nat} (start : Complex F) (v : Vector (Complex F) h)
    (weights : Vector F h) : Complex F :=
  match centre with
  | .leading => (v.zipWith Complex.scale weights).foldl (· + ·) start
  | .first | .opening | .last _ => (v.zip weights).foldl (fun acc e => e.1.scaleAdd e.2 acc) start

/-- The cosines' part of pair `j`, with `x_0` unless that comes last. -/
def even (centre : Centre) (j : Nat) {h : Nat} (x : Complex F) (sums : Vector (Complex F) h)
    (weights : Vector F h) : Complex F :=
  match centre with
  | .leading | .first | .opening => centre.weighted x sums weights
  | .last pairs =>
    if j < pairs then centre.weighted 0 sums weights else x + centre.weighted 0 sums weights

/-- The value of an entry of pair `j`, with `x_0` if it is still missing. -/
def finish (centre : Centre) (j : Nat) (x value : Complex F) : Complex F :=
  match centre with
  | .leading | .first | .opening => value
  | .last pairs => if j < pairs then x + value else value

end Centre

/-- A transform of odd length `n = 2 h + 1`. With the sums and the differences of `x_k` and
`x_{n - k}`, the entries `j` and `n - j` are

  `x_0 + Σ cos (2π j k / n) (x_k + x_{n-k}) ∓ i Σ sin (2π j k / n) (x_k - x_{n-k})`,

for which the roots of unity in one half plane are enough. -/
def butterflyOdd {h : Nat} (centre : Centre) (x : Vector (Complex F) (2 * h + 1)) :
    Vector (Complex F) (2 * h + 1) :=
  let roots : Vector (Complex F) (h + 1) := Vector.ofFn fun t => unitRoot (2 * h + 1) t.val
  let root (j : Nat) (k : Fin h) : Complex F :=
    let t := (j + 1) * (k.val + 1) % (2 * h + 1)
    have : t < 2 * h + 1 := Nat.mod_lt _ (Nat.succ_pos _)
    if ht : t ≤ h then roots.get ⟨t, by omega⟩
    else (roots.get ⟨2 * h + 1 - t, by omega⟩).conj
  let sums : Vector (Complex F) h := Vector.ofFn fun k => x[k.val + 1] + x[2 * h - k.val]
  let turned : Vector (Complex F) h := Vector.ofFn fun k =>
    (x[k.val + 1] - x[2 * h - k.val]).turnBack
  let cosines : Vector (Complex F) h := Vector.ofFn fun j =>
    centre.even j x[0] sums (Vector.ofFn fun k => (root j k).re)
  let sines : Vector (Complex F) h := Vector.ofFn fun j =>
    centre.weighted 0 turned (Vector.ofFn fun k => (root j k).im)
  Vector.ofFn fun j =>
    if h0 : j.val = 0 then centre.total x[0] sums.toList
    else if hh : j.val ≤ h then
      let k : Fin h := ⟨j.val - 1, by omega⟩
      centre.finish k x[0] (cosines[k] + sines[k])
    else
      let k : Fin h := ⟨2 * h - j.val, by omega⟩
      centre.finish k x[0] (cosines[k] - sines[k])

end TensorChebyshev
