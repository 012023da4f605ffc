import DiceCalculus.Fault
import DiceCalculus.Law.Basic

set_option autoImplicit false
set_option relaxedAutoImplicit false

/-!
# Combining the components of an outcome

The functions by which a joint law is collapsed to the law of one number.

## Main definitions

* `Operator.apply`, `Operator.combine` — an operator at two numbers, and at the two components of
  an outcome.
* `Atom.greatest` — the greatest of the components, in which an absent die has no part.
* `Combiner` — the functions that a joint law can be folded by.
* `Combiner.apply` — the value of such a function at an outcome.
-/

namespace DiceCalculus

variable {ρ μ : Type} [Scalar ρ]

/-! ## Operators -/

namespace Operator

/-- The value of an operator at two numbers. -/
def apply (op : Operator) (x y : Number ρ) : Except (Fault ρ μ) (Number ρ) :=
  match op.value? x y with
  | some z => .ok z
  | none => .error .divisionByZero

/-- The value of an operator at an outcome, which must be a pair of numbers. -/
def combine (op : Operator) : List (Atom ρ) → Except (Fault ρ μ) (Atom ρ)
  | [.number x, .number y] => .number <$> op.apply x y
  | [_, _] => .error (.unsupported .doArithmetic .absentDie)
  | as => .error (.wrongArity op as.length)

end Operator

/-! ## Statistics of an outcome -/

namespace Atom

/-- The greatest of a list of atoms, which is absent if no die was rolled. -/
def greatest (as : List (Atom ρ)) : Atom ρ := as.foldl Atom.max .absent

/-- The smallest of an atom and a list of atoms. -/
def smallest (a : Atom ρ) (as : List (Atom ρ)) : Atom ρ := as.foldl Atom.min a

/-- The sum of the numbers in a list of atoms. -/
def total (as : List (Atom ρ)) : Number ρ := (as.filterMap number?).foldl (· + ·) .zero

end Atom

/-- A function by which a joint law can be folded. -/
inductive Combiner where
  /-- The sum of the numbers. -/
  | sum
  /-- The greatest component. -/
  | max
  /-- The smallest component. -/
  | min
  /-- The first component. -/
  | first
  /-- The last component. -/
  | last
  /-- The number of components. -/
  | arity
  /-- An operator at two numbers. -/
  | operator (op : Operator)
  deriving DecidableEq

namespace Combiner

/-- Why a function has no value at an outcome. -/
inductive Failure where
  /-- An operator needs two numbers. -/
  | needsTwoNumbers
  /-- The second of two numbers is zero and they are to be divided. -/
  | divisionByZero
  deriving DecidableEq

/-- The text that reports a failure. -/
def Failure.message : Failure → String
  | needsTwoNumbers => "needs two numbers"
  | divisionByZero => Fault.message .divisionByZero

/-- The function with a name; every name but those of the statistics is read as an operator. -/
def ofName? : String → Option Combiner
  | "sum" => some sum
  | "max" => some max
  | "min" => some min
  | "first" => some first
  | "last" => some last
  | "arity" => some arity
  | s => (Operator.ofSymbol? s).map operator

/-- The value of a function at an outcome. -/
def apply (f : Combiner) : List (Atom ρ) → Except Failure (Atom ρ)
  | [] => .error .needsTwoNumbers
  | a :: as =>
    match f with
    | sum => .ok (.number (Atom.total (a :: as)))
    | max => .ok (Atom.greatest (a :: as))
    | min => .ok (Atom.smallest a as)
    | first => .ok a
    | last => .ok (as.getLastD a)
    | arity => .ok (.number (.int (.ofNat (as.length + 1))))
    | operator op =>
      match a, as with
      | .number x, [.number y] =>
        match op.value? x y with
        | some z => .ok (.number z)
        | none => .error .divisionByZero
      | _, _ => .error .needsTwoNumbers

end Combiner

end DiceCalculus
