import DiceCalculus.Proofs.Plan.Trace

set_option autoImplicit false
set_option relaxedAutoImplicit false

/-!
# The questions that an expression answers

A meaning has six answers. What is said about all of them is said once, for a question that stands
for any of the six.

## Main definitions

* `Question` — what an expression can be asked; `Question.mode` and `Question.part` say how the
  answer is found.
* `Question.of`, `Question.plan` — the answer of a meaning, and its plan.

## Main results

* `Question.outcome_trace`, `Question.outcome_traced` — without its log, the trace of the plan is the
  answer, with any amount of fuel and with that of the session.
-/

namespace DiceCalculus

/-- What an expression can be asked. -/
inductive Question where
  /-- The sampled value. -/
  | value
  /-- The sampled values of the components. -/
  | items
  /-- The law. -/
  | law
  /-- The laws of the components. -/
  | laws
  /-- What a variable holds to which the expression is assigned. -/
  | stored (m : Mode)
  /-- What the expression does as a statement. -/
  | step (m : Mode)
  deriving DecidableEq

namespace Question

/-- The mode in which the answer is found. -/
@[reducible] def mode : Question → Mode
  | value | items => .sample
  | law | laws => .exact
  | stored m | step m => m

/-- Whether the expression is evaluated for an answer or run for its effect. -/
@[reducible] def part : Question → Part
  | step _ => .statement
  | _ => .expression

/-- What the answer is. -/
@[reducible] def Answer (ρ μ : Type) [Scalar ρ] : Question → Type
  | value => Value ρ μ
  | items => List (Value ρ μ)
  | law => Law ρ μ
  | laws => List (Law ρ μ)
  | stored _ => Binding ρ μ
  | step m => Flow (m.Answer ρ μ)

variable {ρ μ : Type} [Scalar ρ]

/-- The answer of a meaning. -/
def of : (q : Question) → Meaning ρ μ → Run ρ μ (q.Answer ρ μ)
  | value, x => x.value
  | items, x => x.items
  | law, x => x.law
  | laws, x => x.laws
  | stored m, x => x.stored m
  | step m, x => x.step m

/-- The plan of the answer. -/
def plan : (q : Question) → Plans ρ μ → Plan ρ μ q.mode q.part (q.Answer ρ μ)
  | value, x => x.value
  | items, x => x.items
  | law, x => x.law
  | laws, x => x.laws
  | stored m, x => x.stored m
  | step m, x => x.step m

/-- Taking the steps of the plan gives the answer. -/
lemma run_plan (q : Question) (enter : Enter ρ μ) (x : Plans ρ μ) :
    (q.plan x).run enter = q.of (x.meaning enter) := by
  cases q <;> rfl

variable [Mass μ] {σ : Type} [Roller σ]

/-- Without its log, the trace of the plan is the answer, with any amount of fuel. -/
theorem outcome_trace (q : Question) (fuel : Nat) (e : Expr ρ) (s : Session ρ μ) (r : σ) :
    ((q.plan e.plans).trace (Plan.traceBody fuel) s r).outcome =
      (q.of (e.meaning fuel)).play s r := by
  rw [Plan.outcome_trace (Plan.outcome_traceBody fuel), run_plan, Plan.meaning_plans_enterBody]

/-- An answer of an expression is that of its meaning, with the fuel of the session. -/
lemma play_ask (q : Question) (e : Expr ρ) (s : Session ρ μ) (r : σ) :
    (e.ask q.of).play s r = (q.of (e.meaning s.fuel)).play s r := by
  rw [Run.play_eq, Run.play_eq, Run.exec_ask]

/-- Without its log, the trace of the plan is the answer. -/
theorem outcome_traced (q : Question) (e : Expr ρ) (s : Session ρ μ) (r : σ) :
    ((q.plan e.plans).traced s r).outcome = (e.ask q.of).play s r :=
  (q.outcome_trace s.fuel e s r).trans (q.play_ask e s r).symm

/-- The session that an answer leaves is that of its trace. -/
lemma session_traced (q : Question) (e : Expr ρ) (s : Session ρ μ) (r : σ) :
    ((e.ask q.of).play s r).2.1 = ((q.plan e.plans).traced s r).session :=
  congrArg (·.2.1) (q.outcome_traced e s r).symm

end Question

end DiceCalculus
