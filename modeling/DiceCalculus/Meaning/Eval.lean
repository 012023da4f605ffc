import DiceCalculus.Meaning.Call

set_option autoImplicit false
set_option relaxedAutoImplicit false

/-!
# The meaning of an expression

## Main definitions

* `Expr.denote` — the meaning of an expression, given how bodies are run.
* `Expr.meaning` — the meaning of an expression with fuel for nested calls.
* `Session.fuel` — enough fuel for the limit of the depth.

## Design

The meaning of an expression is put together from the meanings of its parts, by recursion on the
syntax. Only the body of a declared function is not a part of what runs it, so every activation
takes one unit of fuel, and a body is run with what is left. Evaluation is therefore total, by
recursion first on the fuel and then on the expression.
-/

namespace DiceCalculus

variable {ρ μ : Type} [Scalar ρ] [Mass μ]

namespace Expr

mutual

/-- The meaning of an expression, given how bodies are run. -/
def denote (enter : Enter ρ μ) : Expr ρ → Meaning ρ μ
  | .literal x => .literal x
  | .binary op left right => .binary op (left.denote enter) (right.denote enter)
  | .dice count sides => .dice (count.denote enter) (sides.denote enter)
  | .sequence es => .sequence (denoteAll enter es)
  | .var name => .var name
  | .assign name e => .assign name (e.denote enter)
  | .call shape ⟨es, gs⟩ => .call enter shape ⟨denoteAll enter es, denoteGroups enter gs⟩
  | .block es => .block (denoteAll enter es)
  | .output e => .output (e.denote enter)
  | .declare signature body => .declare signature body

/-- The meanings of a list of expressions. -/
def denoteAll (enter : Enter ρ μ) : List (Expr ρ) → List (Meaning ρ μ)
  | [] => []
  | e :: es => e.denote enter :: denoteAll enter es

/-- The meanings of groups of expressions. -/
def denoteGroups (enter : Enter ρ μ) :
    List (String × List (Expr ρ)) → List (String × List (Meaning ρ μ))
  | [] => []
  | (k, es) :: gs => (k, denoteAll enter es) :: denoteGroups enter gs

end

/-- The meaning of an expression with fuel for a number of nested calls. -/
def meaning : (fuel : Nat) → Expr ρ → Meaning ρ μ
  | 0 => denote fun _ _ => throw .outOfFuel
  | fuel + 1 => denote fun body m => Meaning.resultOf m (body.map (meaning fuel))

end Expr

/-- Enough fuel for the calls that the limit of the depth leaves. Without a limit there is no
amount that is enough for every program; this one is enough for any that a machine can run. -/
def Session.fuel (s : Session ρ μ) : Nat :=
  match s.limits.maxDepth with
  | some limit => limit - s.depth
  | none => 1000000000

end DiceCalculus
