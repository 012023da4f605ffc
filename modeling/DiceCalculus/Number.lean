import DiceCalculus.Scalar

set_option autoImplicit false
set_option relaxedAutoImplicit false

/-!
# Numbers

A number is an integer of 32 bits or a real. Integer arithmetic is exact: a sum, difference or
product that leaves the 32 bits is a real instead, and so is every result with a real operand.

## Main definitions

* `Number` — an integer or a real, with the two written forms kept apart.
* `Number.toReal`, `Number.toInt32?` — the value as a real, and as an integer if it is one.
* `Number.add`, `Number.sub`, `Number.mul` — arithmetic with promotion.
* `Number.max`, `Number.min` — the greater and the smaller of two numbers.

## Main results

* `Number.compare_eq_cmp` — two numbers compare as their values do among the reals, whatever
  their forms; in particular the order is total.

## Design

Equality of numbers is equality in the order, `compare x y = .eq`, and the Boolean equality is
that one. It is coarser than identity: an integer equals the real of its value. Where a written
form matters, as in the keys of a law, the form is the one that came first.
-/

namespace DiceCalculus

/-- An integer of 32 bits or a real. -/
inductive Number (ρ : Type) where
  /-- A number written as an integer. -/
  | int (i : Int32)
  /-- A number written as a real. -/
  | real (x : ρ)
  deriving DecidableEq, Inhabited

/-- The integer of 32 bits of a value, if the value is in range. -/
def Int32.ofInt? (n : Int) : Option Int32 :=
  if Int32.minValue.toInt ≤ n ∧ n ≤ Int32.maxValue.toInt then some (Int32.ofInt n) else none

namespace Number

variable {ρ : Type}

/-- The number zero. -/
def zero : Number ρ := .int 0

/-- The number one. -/
def one : Number ρ := .int 1

/-- The answer of a comparison: one if it holds and zero otherwise. -/
def ofBool (b : Bool) : Number ρ := if b then one else zero

variable [Scalar ρ]

/-- The number below which a maximum never falls. -/
def negInfinity : Number ρ := .real Scalar.negInfinity

/-- The value of a number as a real. -/
def toReal : Number ρ → ρ
  | .int i => Scalar.ofInt32 i
  | .real x => x

/-- The integer that a number equals, if there is one. -/
def toInt32? : Number ρ → Option Int32
  | .int i => some i
  | .real x => Scalar.toInt32? x

/-! ## Arithmetic -/

/-- Applies an operation: exactly to two integers whose result is in range, to the values as
reals otherwise. -/
def promote (exact : Int → Int → Int) (approximate : ρ → ρ → ρ) : Number ρ → Number ρ → Number ρ
  | .int i, .int j =>
    match Int32.ofInt? (exact i.toInt j.toInt) with
    | some k => .int k
    | none => .real (approximate (Scalar.ofInt32 i) (Scalar.ofInt32 j))
  | x, y => .real (approximate x.toReal y.toReal)

/-- The sum of two numbers. -/
def add : Number ρ → Number ρ → Number ρ := promote (· + ·) Scalar.add

/-- The difference of two numbers. -/
def sub : Number ρ → Number ρ → Number ρ := promote (· - ·) Scalar.sub

/-- The product of two numbers. -/
def mul : Number ρ → Number ρ → Number ρ := promote (· * ·) Scalar.mul

/-- The quotient of two numbers is always a real. -/
def div (x y : Number ρ) : Number ρ := .real (Scalar.div x.toReal y.toReal)

instance : Add (Number ρ) := ⟨add⟩
instance : Sub (Number ρ) := ⟨sub⟩
instance : Mul (Number ρ) := ⟨mul⟩
instance : Div (Number ρ) := ⟨div⟩

/-! ## Order -/

/-- Two integers are compared as integers, and every other pair as reals. -/
protected def compare : Number ρ → Number ρ → Ordering
  | .int i, .int j => compare i.toInt j.toInt
  | x, y => Scalar.cmp x.toReal y.toReal

instance : Ord (Number ρ) := ⟨Number.compare⟩

/-- Numbers are equal if neither is below the other. -/
instance : BEq (Number ρ) := ⟨fun x y => compare x y == .eq⟩

/-- Two numbers compare as their values do among the reals. -/
theorem compare_eq_cmp (x y : Number ρ) : compare x y = Scalar.cmp x.toReal y.toReal := by
  cases x with
  | real _ => rfl
  | int i =>
    cases y with
    | real _ => rfl
    | int j => exact (Scalar.cmp_ofInt32 i j).symm

/-- The order of numbers is total and transitive. -/
instance : Std.TransOrd (Number ρ) :=
  have := Scalar.transCmp (ρ := ρ)
  { eq_swap := fun {x y} => by
      rw [compare_eq_cmp, compare_eq_cmp]
      exact Std.OrientedCmp.eq_swap
    isLE_trans := fun {x y z} hxy hyz => by
      rw [compare_eq_cmp] at hxy hyz ⊢
      exact Std.TransCmp.isLE_trans hxy hyz }

/-- A number is zero if it equals the integer zero, in whichever form it is written. -/
def isZero (x : Number ρ) : Bool := x == zero

/-- The greater of two numbers, and the second of two equal ones. -/
protected def max (x y : Number ρ) : Number ρ := if compare x y = .gt then x else y

/-- The smaller of two numbers, and the first of two equal ones. -/
protected def min (x y : Number ρ) : Number ρ := if compare x y = .gt then y else x

end Number

end DiceCalculus
