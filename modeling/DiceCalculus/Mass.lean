set_option autoImplicit false
set_option relaxedAutoImplicit false

/-!
# Masses

The masses of a law are a parameter, as its reals are: a running program computes them in doubles
and a statement about probabilities reads them as rationals.

## Main definitions

* `Mass` — a type of masses: sums, differences and products, the share of one face of a fair die,
  and the two questions that are asked of a mass.

## Design

The class has no laws. What a law does with its masses is determined by the operations alone, in
a fixed order, so that also an answer in doubles is determined to the last bit.
-/

namespace DiceCalculus

/-- A type of masses. -/
class Mass (μ : Type) extends Zero μ, One μ, Add μ, Sub μ, Mul μ where
  /-- What a sum over the outcomes of a law starts from. In doubles this is the negative zero,
  which, unlike zero, is neutral for their addition. -/
  neutral : μ
  /-- The mass of each face of a fair die with a number of sides. -/
  share : Nat → μ
  /-- Whether a mass is above zero. -/
  isPositive : μ → Bool
  /-- Whether the distance of two masses is at most a tolerance. -/
  isWithin : (tolerance x y : μ) → Bool

/-- Doubles are the masses of a running program. -/
instance : Mass Float where
  zero := 0.0
  one := 1.0
  neutral := -0.0
  share sides := 1.0 / Float.ofNat sides
  isPositive x := 0.0 < x
  isWithin tolerance x y := (x - y).abs ≤ tolerance

end DiceCalculus
