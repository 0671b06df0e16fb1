/-!
The shortest decimal that reads back. A finite positive binary number is the nearest one to all
reals of an interval around it; `Binary.shortest` finds the fewest significant digits that
name a real of this interval and, with that many digits, the one nearest to the number. All
comparisons are made on natural numbers.
-/

namespace TensorChebyshev

/-- A positive number `digits · 10 ^ exponent`. -/
structure Decimal where
  digits : Nat
  exponent : Int
  deriving DecidableEq, Repr

/-- The positive number `mantissa · 2 ^ exponent`. `narrow` says that it is a power of two whose
lower neighbour is only half as far away as its upper one. -/
structure Binary where
  mantissa : Nat
  exponent : Int
  narrow : Bool
  deriving DecidableEq, Repr

namespace Decimal

/-- Drops zeros at the end, at most `fuel` of them. -/
def trimmed : (fuel : Nat) → Decimal → Decimal
  | 0, d => d
  | fuel + 1, d =>
    if d.digits % 10 = 0 then trimmed fuel ⟨d.digits / 10, d.exponent + 1⟩ else d

end Decimal

namespace Binary

/-- A common denominator of the number and the ends of its interval. -/
def denominator (b : Binary) : Nat := Nat.pow 2 (2 - b.exponent).toNat

/-- A quarter of a unit in the last place, over the denominator. -/
def quarter (b : Binary) : Nat := Nat.pow 2 (b.exponent - 2).toNat

/-- The number over the denominator. -/
def value (b : Binary) : Nat := 4 * b.mantissa * b.quarter

/-- The lower end of the interval over the denominator. -/
def lower (b : Binary) : Nat :=
  (4 * b.mantissa - if b.narrow then 1 else 2) * b.quarter

/-- The upper end of the interval over the denominator. -/
def upper (b : Binary) : Nat := (4 * b.mantissa + 2) * b.quarter

/-- Whether `num / den` reads back as the number. The ends of the interval do when the mantissa
is even. -/
def readsBack (b : Binary) (num den : Nat) : Bool :=
  if b.mantissa % 2 = 0 then
    b.lower * den ≤ num * b.denominator && num * b.denominator ≤ b.upper * den
  else
    b.lower * den < num * b.denominator && num * b.denominator < b.upper * den

/-- The exponent of the leading decimal digit. The value is moved left by enough places to
count the digits of a whole number. -/
def leading (b : Binary) : Int :=
  ((Nat.toDigits 10 (b.value * Nat.pow 10 400 / b.denominator)).length : Int) - 401

/-- The point nearest to the number among those of the grid `10 ^ step` that read back; the upper
one of two equally near points. -/
def onGrid? (b : Binary) (step : Int) : Option Decimal :=
  let up := Nat.pow 10 step.toNat
  let down := Nat.pow 10 (-step).toNat
  let cell := b.denominator * up
  let num := b.value * down
  let floor := num / cell
  let below := b.readsBack (floor * up) down
  let above := b.readsBack ((floor + 1) * up) down
  if below && (!above || 2 * (num % cell) < cell) then some ⟨floor, step⟩
  else if above then some ⟨floor + 1, step⟩
  else none

/-- The first grid with a point that reads back, from one significant digit on. -/
def search (b : Binary) (top : Int) : (fuel digits : Nat) → Decimal
  | 0, _ => ⟨b.mantissa, 0⟩
  | fuel + 1, digits =>
    match b.onGrid? (top - digits) with
    | some d => d
    | none => search b top fuel (digits + 1)

/-- The shortest decimal that reads back as the number. Seventeen digits always suffice. -/
def shortest (b : Binary) : Decimal :=
  Decimal.trimmed 20 (b.search b.leading 20 0)

end Binary

end TensorChebyshev
