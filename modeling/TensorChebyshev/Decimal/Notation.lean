import TensorChebyshev.Decimal.Shortest

/-!
How numbers are written. A number in the machine's format is undefined, infinite, zero or a
signed finite number; `Numeral.plain` writes it with a decimal point as long as its leading
digit lies between the places `-4` and `15` and with an exponent beyond, `Numeral.scientific`
always with an exponent.
-/

namespace TensorChebyshev

/-- The parts of a floating-point number. -/
inductive Numeral where
  | undefined
  | infinite (negative : Bool)
  | zero (negative : Bool)
  | finite (negative : Bool) (magnitude : Binary)
  deriving DecidableEq, Repr

namespace Numeral

/-- Splits a bit pattern of `expBits` exponent bits and `fracBits` fraction bits. -/
def ofBits (expBits fracBits : Nat) (bits : Nat) : Numeral :=
  let frac := bits % Nat.pow 2 fracBits
  let exp := bits / Nat.pow 2 fracBits % Nat.pow 2 expBits
  let negative := bits / Nat.pow 2 (fracBits + expBits) % 2 = 1
  let least : Int := 2 - Nat.pow 2 (expBits - 1) - fracBits
  if exp = Nat.pow 2 expBits - 1 then
    if frac = 0 then .infinite negative else .undefined
  else if exp = 0 then
    if frac = 0 then .zero negative else .finite negative ⟨frac, least, false⟩
  else
    .finite negative ⟨Nat.pow 2 fracBits + frac, least + (exp - 1 : Nat), frac = 0 && exp != 1⟩

def ofFloat (x : Float) : Numeral := ofBits 11 52 x.toBits.toNat

def ofFloat32 (x : Float32) : Numeral := ofBits 8 23 x.toBits.toNat

end Numeral

namespace Decimal

def leading (d : Decimal) : Int := d.exponent + (Nat.toDigits 10 d.digits).length - 1

/-- Digits with a decimal point and at least one digit on both sides of it. -/
def positional (d : Decimal) : List Char :=
  let ds := Nat.toDigits 10 d.digits
  if 0 ≤ d.exponent then ds ++ List.replicate d.exponent.toNat '0' ++ ['.', '0']
  else
    let places := (-d.exponent).toNat
    let whole := ds.length - places
    if 0 < whole then ds.take whole ++ '.' :: ds.drop whole
    else '0' :: '.' :: List.replicate (places - ds.length) '0' ++ ds

/-- One digit, the others after a point, and the exponent of the first. -/
def scientific (d : Decimal) : List Char :=
  let mantissa := match Nat.toDigits 10 d.digits with
    | [] => []
    | [c] => [c]
    | c :: cs => c :: '.' :: cs
  mantissa ++ 'e' :: (toString d.leading).toList

/-- Positional from the place `-4` to the place `15`. -/
def plain (d : Decimal) : List Char :=
  if -4 ≤ d.leading ∧ d.leading ≤ 15 then d.positional else d.scientific

end Decimal

namespace Numeral

/-- Writes a numeral, given the text of zero and the way to write a finite magnitude. -/
def write (zeroText : String) (form : Decimal → List Char) : Numeral → String
  | .undefined => "NaN"
  | .infinite negative => signed negative "inf"
  | .zero negative => signed negative zeroText
  | .finite negative b => signed negative (String.ofList (form b.shortest))
where
  /-- The text with a sign in front of it if the number is negative. -/
  signed (negative : Bool) (text : String) : String := if negative then "-" ++ text else text

/-- With a decimal point where it is readable. -/
def plain : Numeral → String := write "0.0" Decimal.plain

/-- With an exponent throughout. -/
def scientific : Numeral → String := write "0e0" Decimal.scientific

end Numeral

end TensorChebyshev
