import DiceCalculus.Fault
import DiceCalculus.Law.Basic

set_option autoImplicit false
set_option relaxedAutoImplicit false

/-!
# Limits

What a program may use: dice, nested calls, and outcomes of a law.

## Main definitions

* `Limits` — the limits of a session, each of which may be missing, and the tolerance for the
  total mass of a law.
* `Limits.standard`, `Limits.unbounded` — the limits a session starts with, and none at all.
* `Limits.product`, `Limits.uniform` — joint laws and fair dice within the limit of outcomes.
-/

namespace DiceCalculus

/-- What a program may use. -/
structure Limits (μ : Type) where
  /-- The number of dice rolled in one evaluation. -/
  maxRolls : Option Nat
  /-- The number of calls of declared functions that are under way at once. -/
  maxDepth : Option Nat
  /-- The number of outcomes of a joint law or of a die. -/
  maxOutcomes : Option Nat
  /-- The distance of the total mass of a law from one that is put up with. -/
  tolerance : μ
  deriving DecidableEq

namespace Limits

variable {ρ μ : Type}

/-- The limits that a session starts with. -/
def standard : Limits Float := ⟨some 1000, some 128, some 65536, 1e-9⟩

/-- No limits, with the same tolerance. -/
def unbounded : Limits Float := ⟨none, none, none, standard.tolerance⟩

/-- Whether an amount is within a limit. A missing limit allows any amount. -/
def allows (limit : Option Nat) (amount : Nat) : Bool :=
  match limit with
  | some n => amount ≤ n
  | none => true

/-- Fails if a law would have more outcomes than the limit allows. -/
def checkOutcomes (limits : Limits μ) (outcomes : Nat) : Except (Fault ρ μ) Unit :=
  match limits.maxOutcomes with
  | some limit => if outcomes ≤ limit then .ok () else .error (.tooManyOutcomes limit)
  | none => .ok ()

variable [Scalar ρ] [Mass μ]

/-- The joint law of two independent laws. The limit is compared with the number of pairs of
outcomes, before any pair is made. -/
def product (limits : Limits μ) (l l' : Law ρ μ) : Except (Fault ρ μ) (Law ρ μ) := do
  limits.checkOutcomes (l.size * l'.size)
  return l.product l'

/-- The law of a fair die, whose faces are counted before any is made. -/
def uniform (limits : Limits μ) (sides : Nat) : Except (Fault ρ μ) (Law ρ μ) := do
  limits.checkOutcomes sides
  return .uniform sides

end Limits

end DiceCalculus
