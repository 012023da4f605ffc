import DiceCalculus.Meaning.Eval

set_option autoImplicit false
set_option relaxedAutoImplicit false

/-!
# Evaluating expressions

The questions that a session answers.

## Main definitions

* `Expr.value`, `Expr.items`, `Expr.law`, `Expr.laws` — the answers of an expression in the scope
  and with the dice that are left.
* `Session.evaluate`, `Session.distribution`, `Session.run` — an expression sampled, its law, and
  a statement, each from a fresh amount of dice.
* `Run.play` — a computation on a session whose dice come from a roller.
-/

namespace DiceCalculus

variable {ρ μ : Type} [Scalar ρ] [Mass μ] {α : Type}

namespace Expr

/-- An answer of an expression, with the fuel of the session. -/
def ask (e : Expr ρ) (question : Meaning ρ μ → Run ρ μ α) : Run ρ μ α := do
  question (e.meaning (← Run.read (·.fuel)))

/-- The sampled value of an expression. -/
def value (e : Expr ρ) : Run ρ μ (Value ρ μ) := e.ask (·.value)

/-- The sampled values of the components of an expression. -/
def items (e : Expr ρ) : Run ρ μ (List (Value ρ μ)) := e.ask (·.items)

/-- The law of an expression. -/
def law (e : Expr ρ) : Run ρ μ (Law ρ μ) := e.ask (·.law)

/-- The laws of the components of an expression. -/
def laws (e : Expr ρ) : Run ρ μ (List (Law ρ μ)) := e.ask (·.laws)

/-- An expression as a statement that is sampled in the current frame. -/
def step (e : Expr ρ) : Run ρ μ (Flow (Value ρ μ)) := e.ask (·.step .sample)

end Expr

namespace Session

/-- Starts an evaluation: no dice are spent and no calls are under way. -/
def begin : Run ρ μ Unit :=
  modify fun s => { s with spent := 0, depth := 0 }

/-- Samples an expression once. -/
def evaluate (e : Expr ρ) : Run ρ μ (Value ρ μ) := do
  begin
  e.value

/-- The law of an expression, which must have mass one up to the tolerance. -/
def distribution (e : Expr ρ) : Run ρ μ (Law ρ μ) := do
  begin
  let l ← e.law
  if l.isNormalized (← Run.read (·.limits.tolerance)) then
    return l
  else
    Run.fail (.notNormalized l.total)

/-- Runs a statement in the frame of the global variables, sampling it. Assignments and
declarations have no value. -/
def run (e : Expr ρ) : Run ρ μ (Option (Value ρ μ)) := do
  begin
  match ← Run.within .global e.step with
  | .next v => return v
  | .ended v => return some v

end Session

/-- Carries out a computation on a session with dice from a roller. The session and the roller
are left as the computation leaves them, whether or not it fails. -/
def Run.play {σ : Type} [Roller σ] (act : Run ρ μ α) (s : Session ρ μ) (r : σ) :
    Except (Stop ρ μ) α × Session ρ μ × σ :=
  let ((result, s'), r') := (act.run.run s).play r
  (result, s', r')

end DiceCalculus
