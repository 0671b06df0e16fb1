import TensorChebyshev.Fourier.Sum

/-!
The cosine transform by a Fourier transform. The even extension `d_0, …, d_M, d_{M-1}, …, d_1`
has a spectrum of cosine sums, so its first `M + 1` entries are the transform of `d`. The
method for the spectrum is a parameter.
-/

namespace TensorChebyshev

/-- The entries there and back again, the two ends once. -/
def evenExtension {T : Type} {m : Nat} (d : Vector T (m + 2)) : Vector T (2 * (m + 1)) :=
  Vector.ofFn fun j =>
    if h : j.val < m + 2 then d[j.val]
    else
      have : 2 * (m + 1) - j.val < m + 2 := by omega
      d[2 * (m + 1) - j.val]

variable {F : Type} (method : FourierMethod F)

/-- The cosine transform as the first half of a spectrum. -/
def cosineSpectrum : {n : Nat} → Vector (Complex F) n → Vector (Complex F) n
  | 0, d => d
  | 1, d => d
  | m + 2, d =>
    let spectrum := method (2 * (m + 1)) (evenExtension d)
    Vector.ofFn fun k =>
      have : k.val < 2 * (m + 1) := by omega
      spectrum[k.val]

/-- The transform is a spectrum: entry by entry that of the even extension. -/
theorem getElem_cosineSpectrum {m : Nat} (d : Vector (Complex F) (m + 2)) (k : Nat)
    (hk : k < m + 2) :
    (cosineSpectrum method d)[k] = (method (2 * (m + 1)) (evenExtension d))[k] := by
  simp [cosineSpectrum]

/-- The same for real data: embedded, transformed, and the real parts taken. -/
def realCosineSpectrum [Zero F] {n : Nat} (d : Vector F n) : Vector F n :=
  (cosineSpectrum method (d.map fun x => (⟨x, 0⟩ : Complex F))).map Complex.re

end TensorChebyshev
