set_option autoImplicit false
set_option relaxedAutoImplicit false

/-!
# Scalars: the real numbers of a dice expression

A number of a dice expression is an integer of 32 bits or a real. The integers are the same
everywhere; the reals are a parameter, so that a statement can be made once for doubles and for
exact arithmetic, and can name the few laws of the reals that it needs.

## Main definitions

* `Scalar` — a type of reals: the four operations, a total order, and the passage from and to
  the integers of 32 bits.

## Design

The laws of the class say how the reals lie around the integers: the order is total, it agrees
with the order of the integers, a real passes to an integer exactly if it equals one, and the
value of a maximum over nothing lies below every integer. Laws of the arithmetic itself are
hypotheses of the statements that need them.
-/

namespace DiceCalculus

/-- A type of real numbers. Its order is total, so equality of reals is `cmp x y = .eq`, which
may be coarser than identity: the two zeros of a floating-point format compare equal. -/
class Scalar (ρ : Type) where
  /-- The real of the same value as an integer. -/
  ofInt32 : Int32 → ρ
  /-- The integer of the same value as a real, if there is one. -/
  toInt32? : ρ → Option Int32
  /-- The total order of the reals. -/
  cmp : ρ → ρ → Ordering
  /-- The sum of two reals. -/
  add : ρ → ρ → ρ
  /-- The difference of two reals. -/
  sub : ρ → ρ → ρ
  /-- The product of two reals. -/
  mul : ρ → ρ → ρ
  /-- The quotient of two reals. -/
  div : ρ → ρ → ρ
  /-- The value of a maximum over nothing. -/
  negInfinity : ρ
  /-- The order is total and transitive. -/
  transCmp : Std.TransCmp cmp
  /-- Integers keep their order as reals. -/
  cmp_ofInt32 : ∀ i j, cmp (ofInt32 i) (ofInt32 j) = compare i.toInt j.toInt
  /-- A real passes to the integer that it equals, and to no other. -/
  toInt32?_eq_some_iff : ∀ x i, toInt32? x = some i ↔ cmp (ofInt32 i) x = .eq
  /-- A maximum over nothing lies below every integer. -/
  negInfinity_lt_ofInt32 : ∀ i, cmp negInfinity (ofInt32 i) = .lt

end DiceCalculus
