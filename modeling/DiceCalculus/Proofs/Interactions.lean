import DiceCalculus.Proofs.FrameEffect
import DiceCalculus.Proofs.Plan.Evolution

set_option autoImplicit false
set_option relaxedAutoImplicit false

/-!
# What is done with a session from outside

Besides what a session answers itself, each time with no dice spent, an expression can be asked
directly, with the dice that are left.

## Main definitions

* `Interaction` — an operation of a session, or a question to an expression.
* `Interaction.perform` — the interaction as a computation.
* `Interaction.after`, `Session.afterAll` — the session and the roller after one, and after
  several in turn.

## Main results

* `Request.evolves_perform` — what is changed by a session that answers.
-/

namespace DiceCalculus

variable {ρ μ : Type} [Scalar ρ] {σ : Type}

/-- What is done with a session from outside. -/
inductive Interaction (ρ μ : Type) [Scalar ρ] where
  /-- The session is asked something, or a global variable is bound. -/
  | operation (o : Operation ρ μ)
  /-- An expression is asked directly. -/
  | ask (q : Question) (e : Expr ρ)

namespace Interaction

/-- What comes of an interaction. -/
@[reducible] def Answer : Interaction ρ μ → Type
  | operation (.request q) => q.Answer μ
  | operation (.bindGlobal _ _) => Unit
  | ask q _ => q.Answer ρ μ

variable [Mass μ]

/-- The interaction as a computation on the session. -/
def perform : (i : Interaction ρ μ) → Run ρ μ i.Answer
  | operation (.request q) => q.perform
  | operation (.bindGlobal name b) => modify (·.bindGlobal name b)
  | ask q e => e.ask q.of

variable [Roller σ]

/-- The session and the roller after an interaction. The answer is not kept, nor is a failure. -/
def after (i : Interaction ρ μ) (s : Session ρ μ) (r : σ) : Session ρ μ × σ := (i.perform.play s r).2

end Interaction

variable [Roller σ] [Mass μ]

/-- The session and the roller after interactions in turn. -/
def Session.afterAll (is : List (Interaction ρ μ)) (s : Session ρ μ) (r : σ) : Session ρ μ × σ :=
  is.foldl (fun p i => i.after p.1 p.2) (s, r)

/-- In the scope of the global variables, whatever a session is asked makes it evolve from the session
in which no dice are spent and no calls are under way. -/
theorem Request.evolves_perform (q : Request ρ) {s : Session ρ μ} (hs : s.scope = .global) (r : σ) :
    s.renewed.Evolves (q.perform.play s r).2.1 := by
  have houtcome := congrArg (·.2.1) (q.outcome_trace s r)
  change (q.trace s r).session = _ at houtcome
  rw [← houtcome]
  have hbody := Plan.evolves_traceBody (ρ := ρ) (μ := μ) (σ := σ) s.renewed.fuel
  cases q with
  | evaluate e => exact Plan.evolves_trace hbody e.plans.value s.renewed r
  | distribution e =>
    exact .andThen (Plan.evolves_trace hbody e.plans.law s.renewed r) fun _ s _ => .refl s
  | run e =>
    obtain ⟨limits, registry, frames, scope, spent, depth⟩ := s
    cases hs
    have hstep := Plan.evolves_trace hbody ((e.plans : Plans ρ μ).step .sample)
      ⟨limits, registry, frames, .global, 0, 0⟩ r
    exact hstep.inScope

end DiceCalculus
