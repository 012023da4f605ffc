set_option autoImplicit false
set_option relaxedAutoImplicit false

/-!
# Shortest decimals

A finite double stands for all reals that round to it. Among the decimals in that interval the
*shortest* ones have the fewest digits, and of those the nearest to the double is its decimal
text. Everything is computed in natural numbers.

## Main definitions

* `Decimal` — digits before which a point is understood, and a power of ten.
* `Binary` — a mantissa and a power of two, with the spacing of its neighbours.
* `Binary.ofBits` — the magnitude of a finite double.
* `Binary.shortest` — the shortest decimal of a positive magnitude.

## Implementation notes

With `n` digits a decimal lies on the grid of the multiples of a power of ten, and if any point
of that grid lies in the interval, one of the two neighbours of the magnitude on the grid does.
So it is enough to test these two for `n = 1, 2, …`; seventeen digits always suffice. The tests
compare products of natural numbers: a magnitude is a fraction whose denominator, like that of a
point of the grid, is a power of two or of ten.
-/

namespace DiceCalculus

/-- The decimal `0.d₁d₂… · 10 ^ point`. -/
structure Decimal where
  /-- The digits, the first of which is not zero unless the decimal is zero. -/
  digits : List Char
  /-- The number of digits that stand before the decimal point. -/
  point : Int
  deriving DecidableEq

/-- A power of ten. -/
def Decimal.powerOfTen (k : Nat) : Nat := Nat.pow 10 k

/-- The decimal of a number of units of a power of ten, without zeros at its end. -/
def Decimal.ofUnits (units : Nat) (exponent : Int) : Decimal :=
  let digits := Nat.toDigits 10 units
  ⟨(digits.reverse.dropWhile (· == '0')).reverse, digits.length + exponent⟩

/-- The magnitude `mantissa · 2 ^ exponent`. -/
structure Binary where
  /-- The mantissa. -/
  mantissa : Nat
  /-- The power of two that it counts. -/
  exponent : Int
  /-- Whether the magnitude below it is only half as far away as the one above it. -/
  narrowBelow : Bool
  deriving DecidableEq

namespace Binary

/-- The magnitude of a finite double with a given pattern. The fraction of a normal number has a
hidden leading bit; below the first normal number the spacing stays the same. -/
def ofBits (bits : Nat) : Binary :=
  let exponent : Nat := bits >>> 52 % 2048
  let fraction := bits % 1 <<< 52
  if exponent = 0 then ⟨fraction, -1074, false⟩
  else ⟨1 <<< 52 + fraction, (exponent : Int) - 1075, fraction == 0 && 1 < exponent⟩

/-! ## Fractions

A magnitude is compared in quarters of its unit, since half the way to a neighbour is a half or a
quarter of it. -/

/-- The numerator of a number of quarters of the unit, over `denominator`. -/
def quarters (b : Binary) (n : Nat) : Nat := n <<< (b.exponent - 2).toNat

/-- The denominator of every number of quarters of the unit. -/
def denominator (b : Binary) : Nat := 1 <<< (2 - b.exponent).toNat

/-- The numerator of the magnitude. -/
def numerator (b : Binary) : Nat := b.quarters (4 * b.mantissa)

/-- The numerator of the least real that may round to the magnitude. -/
def lowest (b : Binary) : Nat := b.quarters (4 * b.mantissa - if b.narrowBelow then 1 else 2)

/-- The numerator of the greatest real that may round to the magnitude. -/
def highest (b : Binary) : Nat := b.quarters (4 * b.mantissa + 2)

/-- The reals halfway to a neighbour round to the magnitude if its mantissa is even. -/
def includesEnds (b : Binary) : Bool := b.mantissa % 2 == 0

/-- Whether the magnitude is below a power of ten. -/
def isBelowPower (b : Binary) (k : Int) : Bool :=
  b.numerator * Decimal.powerOfTen (-k).toNat < b.denominator * Decimal.powerOfTen k.toNat

/-- The number of digits of the magnitude before the decimal point; negative if the first digits
after the point are zeros. The logarithm to base two, times that of two to base ten, is never too
great and at most two too small, so it is tried and raised. -/
def point (b : Binary) : Int :=
  let estimate := ((b.numerator.log2 : Int) - b.denominator.log2) * 1233 / 4096
  if b.isBelowPower estimate then estimate
  else if b.isBelowPower (estimate + 1) then estimate + 1
  else estimate + 2

/-! ## The search -/

/-- The decimal on the grid of a given power of ten that rounds to the magnitude, if there is
one. Of two the nearer is taken, and the greater of two that are equally near. -/
def onGrid? (b : Binary) (grid : Int) : Option Decimal :=
  let unit := b.denominator * Decimal.powerOfTen grid.toNat
  let scale := Decimal.powerOfTen (-grid).toNat
  let below := b.numerator * scale / unit
  let reachesBelow :=
    let distance := compare (b.lowest * scale) (below * unit)
    distance.isLT || (b.includesEnds && distance.isEq)
  let reachesAbove :=
    let distance := compare ((below + 1) * unit) (b.highest * scale)
    distance.isLT || (b.includesEnds && distance.isEq)
  let nearerBelow := decide (2 * (b.numerator * scale) < (2 * below + 1) * unit)
  if reachesBelow && (nearerBelow || !reachesAbove) then some (.ofUnits below grid)
  else if reachesAbove then some (.ofUnits (below + 1) grid)
  else none

/-- The decimal with the fewest digits, from a number of digits on, that rounds to the
magnitude. -/
def search (b : Binary) (point : Int) : (attempts digits : Nat) → Option Decimal
  | 0, _ => none
  | attempts + 1, digits =>
    match b.onGrid? (point - digits) with
    | some d => some d
    | none => b.search point attempts (digits + 1)

/-- The shortest decimal of a positive magnitude. -/
def shortest (b : Binary) : Decimal :=
  (b.search b.point 17 1).getD (.ofUnits 0 0)

end Binary

end DiceCalculus
