import TensorChebyshev.Cosine.Sum
import TensorChebyshev.Cosine.Spectrum
import TensorChebyshev.Fourier.Layout
import TensorChebyshev.Scalar.Dual

/-!
The machine's number types: binary64 and binary32, complex numbers over them, and dual numbers.
Magnitudes are binary64 for all of them. Machine reals and complex numbers transform by fast
Fourier transforms, dual numbers by cosine sums.
-/

namespace TensorChebyshev

/-- The binary64 number nearest to `π`. -/
def piFloat : Float := Float.ofBits 0x400921FB54442D18

/-- The length of the hypotenuse, by scaling to the longer side, so that no square leaves the
range. An infinite side wins over an undefined one. -/
def hypotFloat (x y : Float) : Float :=
  let a := x.abs
  let b := y.abs
  if a.isInf || b.isInf then 1.0 / 0.0
  else
    let long := if a < b then b else a
    let short := if a < b then a else b
    if long == 0 then long + short
    else
      let q := short / long
      long * Float.sqrt (1 + q * q)

/-- A binary64 number as a sum of two with half as many digits. -/
def halvesFloat (x : Float) : Float × Float :=
  let t := 134217729 * x
  let high := t - (t - x)
  (high, x - high)

/-- The number `a b + c` for factors that are not too large. The product and the sum are kept
with what their rounding leaves out, and the remainders are added last. -/
def mulAddModerate (a b c : Float) : Float :=
  let p := a * b
  if p.isFinite then
    let (ah, al) := halvesFloat a
    let (bh, bl) := halvesFloat b
    let productRest := ((ah * bh - p) + ah * bl + al * bh) + al * bl
    let s := p + c
    let t := s - p
    let sumRest := (p - (s - t)) + (c - t)
    s + (productRest + sumRest)
  else p + c

/-- The number `a b + c` rounded once, but for the last digit of results that are almost halfway
between two numbers. Near the ends of the range the numbers are scaled down. -/
def mulAddFloat (a b c : Float) : Float :=
  if a.isFinite && b.isFinite && c.isFinite then
    let large (x : Float) : Bool := 1e270 ≤ x.abs
    let down : Float := 1 / 18446744073709551616
    let up : Float := 18446744073709551616
    if large b then up * mulAddModerate a (down * b) (down * c)
    else if large a || large c then up * mulAddModerate (down * a) b (down * c)
    else mulAddModerate a b c
  else a * b + c

instance : Arithmetic Float where
  zero := 0
  one := 1
  add := Float.add
  sub := Float.sub
  neg := Float.neg
  mul := Float.mul
  div := Float.div
  beq := Float.beq

instance : RealLine Float where
  le x y := x ≤ y
  isFinite := Float.isFinite
  ofNat n := n.toUInt64.toFloat
  cosPi j m := Float.cos (piFloat * j.toUInt64.toFloat / m.toUInt64.toFloat)
  cosTurn t n := Float.cos (2 * piFloat / n.toUInt64.toFloat * t.toUInt64.toFloat)
  sinTurn t n := Float.sin (2 * piFloat / n.toUInt64.toFloat * t.toUInt64.toFloat)

instance : Scalar Float Float where
  ofReal x := x
  magnitude := Float.abs

instance : RealScalar Float where
  abs := Float.abs
  hypot := hypotFloat

instance : Fused Float := ⟨mulAddFloat⟩

instance : Arithmetic Float32 where
  zero := 0
  one := 1
  add := Float32.add
  sub := Float32.sub
  neg := Float32.neg
  mul := Float32.mul
  div := Float32.div
  beq := Float32.beq

instance : Scalar Float32 Float where
  ofReal := Float.toFloat32
  magnitude x := x.abs.toFloat

/-- In binary64 the product is exact. -/
instance : Fused Float32 := ⟨fun a b c => (a.toFloat * b.toFloat + c.toFloat).toFloat32⟩

instance : RealScalar Float32 where
  abs := Float32.abs
  hypot x y := (hypotFloat x.toFloat y.toFloat).toFloat32

/-- Binary64 numbers, two columns at once. -/
instance : CosineTransform Float := ⟨realCosineSpectrum (FourierMethod.fast .two)⟩

/-- Binary32 numbers, four columns at once. -/
instance : CosineTransform Float32 := ⟨realCosineSpectrum (FourierMethod.fast .four)⟩

instance : CosineTransform (Complex Float) := ⟨cosineSpectrum (FourierMethod.fast .two)⟩

instance : CosineTransform (Complex Float32) := ⟨cosineSpectrum (FourierMethod.fast .four)⟩

instance : CosineTransform (Dual Float) := CosineTransform.bySums

end TensorChebyshev
