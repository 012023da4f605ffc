import DiceCalculus.Law.Combine
import DiceCalculus.Limits

set_option autoImplicit false
set_option relaxedAutoImplicit false

/-!
# Laws of dice

A roll has a number of dice and a number of sides, either of which may be random. Its sum has a
law, and so has each of its dice.

## Main definitions

* `Dice.count`, `Dice.sides` — the numbers that can be a number of dice, and of sides.
* `Dice.sumLaw` — the sum of a fixed number of fair dice.
* `Dice.law` — the sum of a roll whose operands have laws.
* `Dice.laws` — each die of such a roll, by position.
* `Law.operate`, `Law.maximum` — the laws of an operator between two independent operands and of
  the greatest of a list of independent numbers.

## Design

The sum of dice is computed by adding one die at a time to a law that starts certain at zero. A
die beyond the number that is rolled is absent, which is an outcome of its law.
-/

namespace DiceCalculus

variable {ρ μ : Type} [Scalar ρ]

/-! ## Operands of a roll -/

namespace Dice

/-- A number of dice is an integer that is not negative. -/
def count (x : Number ρ) : Except (Fault ρ μ) Nat :=
  match x.toInt32? with
  | some i => if 0 ≤ i.toInt then .ok i.toInt.toNat else .error (.badCount x)
  | none => .error (.badCount x)

/-- A number of sides is an integer that is positive. -/
def sides (x : Number ρ) : Except (Fault ρ μ) Nat :=
  match x.toInt32? with
  | some i => if 0 < i.toInt then .ok i.toInt.toNat else .error (.badSides x)
  | none => .error (.badSides x)

/-- The number of an atom, which must not be absent. -/
def number : Atom ρ → Except (Fault ρ μ) (Number ρ)
  | .absent => .error (.unsupported .roll .absentDie)
  | .number x => .ok x

/-- The number of an outcome, which must have one component. -/
def scalar (o : Outcome ρ) : Except (Fault ρ μ) (Number ρ) :=
  match o.only? with
  | some a => number a
  | none => .error (.compoundOperand o.arity)

/-- The numbers of dice and of sides of a joint outcome, which must have two components. -/
def operands : List (Atom ρ) → Except (Fault ρ μ) (Nat × Nat)
  | [n, m] => do
    let n ← count (← number n)
    let m ← sides (← number m)
    return (n, m)
  | as => .error (.compoundOperand as.length)

end Dice

variable [Mass μ] (limits : Limits μ)

/-! ## Operators and maxima -/

namespace Law

/-- The law of an operator between two independent operands. -/
def operate (op : Operator) (l l' : Law ρ μ) : Except (Fault ρ μ) (Law ρ μ) := do
  (← limits.product l l').fold op.combine

/-- The law of the greatest of a list of independent numbers, of which absent ones have no part,
and of a number given from the start. -/
def maximumFrom (start : Law ρ μ) : List (Law ρ μ) → Except (Fault ρ μ) (Law ρ μ)
  | [] => .ok start
  | l :: ls => do
    let joint ← limits.product start l
    maximumFrom (← joint.fold fun as => .ok (Atom.greatest as)) ls

/-- The law of the greatest of a list of independent numbers. -/
def maximum (ls : List (Law ρ μ)) : Except (Fault ρ μ) (Law ρ μ) :=
  maximumFrom limits (.certain (.number .negInfinity)) ls

end Law

/-! ## Sums of dice -/

namespace Dice

/-- Adds a number of independent dice of one law to a law. -/
def addDice (die : Law ρ μ) : (count : Nat) → Law ρ μ → Except (Fault ρ μ) (Law ρ μ)
  | 0, sum => .ok sum
  | count + 1, sum => do addDice die count (← Law.operate limits .add sum die)

/-- The law of the sum of a number of fair dice. No dice have the sum zero. -/
def sumLaw (count sides : Nat) : Except (Fault ρ μ) (Law ρ μ) := do
  addDice limits (← limits.uniform sides) count (.certain (.number .zero))

/-- Adds the sums of the rolls that a list of weighted operands stands for to a law. -/
def mixSums : List (Outcome ρ × μ) → Law ρ μ → Except (Fault ρ μ) (Law ρ μ)
  | [], mixture => .ok mixture
  | (o, p) :: rest, mixture => do
    let (n, m) ← operands o.atoms
    let sum ← sumLaw limits n m
    mixSums rest (mixture.addScaled p sum)

/-- The law of the sum of a roll whose operands are independent and have laws: the mixture of the
sums over the pairs of operands. -/
def law (count sides : Law ρ μ) : Except (Fault ρ μ) (Law ρ μ) := do
  mixSums limits (← limits.product count sides).entries .empty

/-! ## Dice by position -/

/-- The faces of a die whose number of sides has a law, a weighted die for each number. -/
def weightedFaces (sides : Law ρ μ) : Except (Fault ρ μ) (List (Law ρ μ)) :=
  sides.entries.mapM fun e => do
    let n ← Dice.sides (← scalar e.1)
    return Law.addScaled .empty e.2 (← limits.uniform n)

/-- The greatest number of dice in a list of outcomes. -/
def greatestCount (outcomes : List (Outcome ρ)) : Except (Fault ρ μ) Nat := do
  let counts ← outcomes.mapM fun o => do count (← scalar o)
  return counts.foldl max 0

/-- The mass with which a number of dice reaches a position, counted from one. -/
def reach (count : Law ρ μ) (position : Nat) : Except (Fault ρ μ) μ := do
  let reached ← (count.product (.certain (.number (.int (.ofNat position))))).fold
    (Operator.combine .ge)
  return reached.massOf (.number .one)

/-- The law of the die at a position that is reached with some mass: its faces, and its absence
if it may be absent. -/
def dieLaw (faces : List (Law ρ μ)) (reached : μ) : Law ρ μ :=
  let die : Law ρ μ := faces.foldl (fun die face => Law.addScaled die reached face) .empty
  let missed := 1 - reached
  if Mass.isPositive missed then Law.addScaled die missed (.certain .absent) else die

/-- The law of each die of a roll whose operands have laws, up to the greatest number of dice. -/
def laws (count sides : Law ρ μ) : Except (Fault ρ μ) (List (Law ρ μ)) := do
  let faces ← weightedFaces limits sides
  let greatest ← greatestCount count.keys
  (List.range greatest).mapM fun i => return dieLaw faces (← reach count (i + 1))

end Dice

end DiceCalculus
