import DiceCalculus.Mass
import DiceCalculus.Outcome
import DiceCalculus.Table

set_option autoImplicit false
set_option relaxedAutoImplicit false

/-!
# Laws

A law gives a mass to finitely many outcomes. It is a table in the order of the outcomes, so two
written forms of one outcome share a mass, under the form that came first.

## Main definitions

* `Law` — a table of masses by outcome.
* `Law.certain`, `Law.uniform` — the law of a constant, and of a fair die.
* `Law.mass`, `Law.total` — the mass of an outcome, and of all of them.
* `Law.product` — the joint law of two independent laws.
* `Law.fold` — the law of a function of an outcome.
* `Law.addScaled` — a law weighted by a mass and added to another, the step of a mixture.

## Design

Every law is built by `Table.ofEntries` or `Table.addAll`: masses at one outcome are added from
zero in the order in which their entries are listed. A product lists its entries with the first
law outermost, and a fold lists them in the order of the outcomes.
-/

namespace DiceCalculus

/-- A table of masses by outcome. -/
abbrev Law (ρ μ : Type) [Scalar ρ] := Table (Outcome ρ) μ

/-- The outcome of a die that shows a face. The face is a word; read as an integer of 32 bits it
keeps its bits, so that a face that does not fit is negative. -/
def Outcome.face {ρ : Type} (shown : UInt32) : Outcome ρ := .single (.number (.int shown.toInt32))

namespace Law

variable {ρ μ : Type} [Scalar ρ]

/-! ## Masses of a law -/

section Mass

variable [Mass μ]

/-- The mass of an outcome, which is zero if the law does not list it. -/
def mass (l : Law ρ μ) (o : Outcome ρ) : μ := (l.find? o).getD 0

/-- The mass of the outcome with one component. -/
def massOf (l : Law ρ μ) (a : Atom ρ) : μ := l.mass (.single a)

/-- The mass of all outcomes, added in their order. -/
def total (l : Law ρ μ) : μ := l.values.foldl (· + ·) Mass.neutral

/-- Whether the mass of all outcomes is one, up to a tolerance. -/
def isNormalized (tolerance : μ) (l : Law ρ μ) : Bool := Mass.isWithin tolerance l.total 1

end Mass

/-- Laws are equal if they list equal outcomes with equal masses. -/
instance [BEq μ] : BEq (Law ρ μ) where
  beq l l' := l.keys == l'.keys && l.values == l'.values

/-! ## Building laws -/

variable [Mass μ]

/-- The law of a constant. -/
def certain (a : Atom ρ) : Law ρ μ := .ofEntries [(.single a, 1)]

/-- The law of a fair die: each face from one to the number of sides has the same mass. -/
def uniform (sides : Nat) : Law ρ μ :=
  .ofEntries ((List.range sides).map fun i => (.face (.ofNat (i + 1)), Mass.share sides))

/-- The joint law of two independent laws: outcomes are put together and masses multiplied. -/
def product (l l' : Law ρ μ) : Law ρ μ :=
  .ofEntries (l.entries.flatMap fun e => l'.entries.map fun e' => (e.1 ++ e'.1, e.2 * e'.2))

/-- The law of a function of an outcome. It fails if the function fails on an outcome, with the
failure at the first such outcome. -/
def fold {ε : Type} (f : List (Atom ρ) → Except ε (Atom ρ)) (l : Law ρ μ) :
    Except ε (Law ρ μ) := do
  let entries ← l.entries.mapM fun e => do
    let a ← f e.1.atoms
    return (Outcome.single a, e.2)
  return .ofEntries entries

/-- Adds a law, weighted by a mass, to a target. -/
def addScaled (target : Law ρ μ) (weight : μ) (l : Law ρ μ) : Law ρ μ :=
  target.addAll (l.entries.map fun e => (e.1, e.2 * weight))

end Law

end DiceCalculus
