import TensorChebyshev.Fourier.Sum

/-!
Fourier transforms as convolutions. A convolution is a product between two Fourier transforms of
its own length, so a transform of an awkward length is done by two of a convenient one.

* For a prime length `m + 1`, with the entries in the order of the powers of a generator, the
  transform without the first entry is a cyclic convolution of length `m`.
* For any length `n`, by `2 j k = j² + k² - (j - k)²` the transform is a convolution with a chirp,
  and any cyclic length from `2 n - 1` on has room for it.

Both are part of `FourierMethod.fast`, which runs for the machine's number types only. Theorems
about cosine transforms hold of any method that computes the defining sum.
-/

namespace TensorChebyshev

/-- The powers `x, x g, x g², …` modulo `n`. -/
def orbit (n g : Nat) : (length x : Nat) → List Nat
  | 0, _ => []
  | length + 1, x => x :: orbit n g length (x * g % n)

/-- The powers of `g` modulo `n` come back to one after `n - 1` steps and not before. -/
def generates (n g : Nat) : Bool :=
  match (orbit n g n 1).reverse with
  | last :: between => last == 1 && !(between.dropLast.contains 1)
  | [] => false

/-- The least generator modulo a prime. -/
def generator? (n : Nat) : Option Nat := (List.range n).find? (generates n)

variable {F R : Type} [RealLine R] [Scalar F R] [Fused F]

/-- The convolution whose kernel has the given conjugate transform: a product between two
transforms, of which the second is made an inverse by conjugation. -/
def convolve {m : Nat} (transform : Vector (Complex F) m → Vector (Complex F) m)
    (kernel spectrum : Vector (Complex F) m) (first : Complex F) : Vector (Complex F) m :=
  let product := spectrum.zipWith (fun a b => a.conj.fusedMul b) kernel
  (transform (product.mapIdx fun k y => if k = 0 then y + first.conj else y)).map Complex.conj

/-- The conjugate transform of a kernel, scaled for an unscaled inverse. -/
def kernelSpectrum {m : Nat} (transform : Vector (Complex F) m → Vector (Complex F) m)
    (kernel : Vector (Complex F) m) : Vector (Complex F) m :=
  let scale : F := 1 / Scalar.ofNat m
  (transform (kernel.map (·.scale scale))).map Complex.conj

/-- The transform of prime length `m + 1` by the powers of a generator. The sum of all entries is
read from the first of the two transforms, and the first entry is added to the others in
between. -/
def cyclicTransform {m : Nat} (g : Nat)
    (inner : Vector (Complex F) m → Vector (Complex F) m)
    (x : Vector (Complex F) (m + 1)) : Vector (Complex F) (m + 1) :=
  let power (k : Nat) : Nat := Nat.pow g k % (m + 1)
  let entries : Vector (Complex F) m := Vector.ofFn fun k =>
    have : power (k.val + 1) < m + 1 := Nat.mod_lt _ (Nat.succ_pos m)
    x[power (k.val + 1)]
  let roots : Vector (Complex F) m := Vector.ofFn fun k => unitRoot (m + 1) (power (m - k.val))
  let spectrum := inner entries
  let others := convolve inner (kernelSpectrum inner roots) spectrum x[0]
  let total := x[0] + spectrum.toList.headD 0
  (others.mapIdx fun k y => (power (m - (k + 1)), y)).foldl
    (fun out entry => out.setIfInBounds entry.1 entry.2) (Vector.replicate (m + 1) total)

/-- The transform by a chirp, in a convolution of length `m`. -/
def chirpTransform {n m : Nat} (inner : Vector (Complex F) m → Vector (Complex F) m)
    (x : Vector (Complex F) n) : Vector (Complex F) n :=
  let chirp (k : Nat) : Complex F := unitRoot (2 * n) (k * k % (2 * n))
  let kernel : Vector (Complex F) m := Vector.ofFn fun k =>
    if k.val < n then (chirp k).conj
    else if m - k.val < n then (chirp (m - k.val)).conj
    else 0
  let padded : Vector (Complex F) m := Vector.ofFn fun k =>
    if h : k.val < n then x[k.val].fusedMul (chirp k) else 0
  let result := convolve inner (kernelSpectrum inner kernel) (inner padded) 0
  Vector.ofFn fun k => ((result[k.val]?).getD 0).fusedMul (chirp k)

end TensorChebyshev
