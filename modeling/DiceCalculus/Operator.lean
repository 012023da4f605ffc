import DiceCalculus.Number

set_option autoImplicit false
set_option relaxedAutoImplicit false

/-!
# Binary operators

## Main definitions

* `Operator` — the four arithmetic operators and the six comparisons.
* `Operator.symbol`, `Operator.ofSymbol?` — the written form of an operator, and back.
* `Operator.value?` — the value of an operator at two numbers. A comparison has the value one or
  zero; the only operation without a value is a division by zero.
-/

namespace DiceCalculus

/-- An operator between two numbers. -/
inductive Operator where
  | add
  | sub
  | mul
  | div
  | lt
  | gt
  | le
  | ge
  | eq
  | ne
  deriving DecidableEq, Inhabited

namespace Operator

/-- All operators, the arithmetic ones first. -/
def all : List Operator := [add, sub, mul, div, lt, gt, le, ge, eq, ne]

/-- The written form of an operator. -/
def symbol : Operator → String
  | add => "+"
  | sub => "-"
  | mul => "*"
  | div => "/"
  | lt => "<"
  | gt => ">"
  | le => "<="
  | ge => ">="
  | eq => "=="
  | ne => "!="

/-- The operator with a written form. -/
def ofSymbol? (s : String) : Option Operator := all.find? fun op => op.symbol == s

/-- Whether an operator answers a question instead of computing a number. -/
def isComparison : Operator → Bool
  | add | sub | mul | div => false
  | lt | gt | le | ge | eq | ne => true

variable {ρ : Type} [Scalar ρ]

/-- The value of an operator at two numbers; a division by a number that is zero has none. -/
def value? (op : Operator) (x y : Number ρ) : Option (Number ρ) :=
  match op with
  | add => some (x + y)
  | sub => some (x - y)
  | mul => some (x * y)
  | div => if y.isZero then none else some (x / y)
  | lt => some (.ofBool (compare x y).isLT)
  | gt => some (.ofBool (compare x y).isGT)
  | le => some (.ofBool (compare x y).isLE)
  | ge => some (.ofBool (compare x y).isGE)
  | eq => some (.ofBool (compare x y).isEq)
  | ne => some (.ofBool (compare x y).isNe)

end Operator

end DiceCalculus
