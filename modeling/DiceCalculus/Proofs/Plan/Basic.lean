import DiceCalculus.Proofs.Plan.Calculation
import DiceCalculus.Proofs.Run.Contract

set_option autoImplicit false
set_option relaxedAutoImplicit false

/-!
# Plans

A computation on a session is a function, and a function shows its results only. What it does on
its way — which frames it makes, when a function is called, what is asked for — is seen in a plan:
the tree of the steps that the computation takes, which branches on what the session and the dice
say. An invariant of all computations is then proved by induction over plans, one case for each
step, whatever expression a computation comes from.

## Main definitions

* `Plan` — a computation as the tree of its steps.
* `Plan.run` — the computation that takes the steps, given how bodies are run.
* `Plan.each` — a plan for every item of a list.

## Main results

* `Plan.run_bind` — taking the steps of two plans in turn.

## Design

A plan is indexed by the mode and by the part of a program that it belongs to. What cannot happen
there has no step: laws are computed without dice, and an expression binds no variable in the frame
in which it is evaluated. The body of a declared function is no part of the plan of its call, since
it is found in the registry when the call is made.
-/

namespace DiceCalculus

universe u

/-- A computation as the tree of its steps. -/
inductive Plan (ρ μ : Type) [Scalar ρ] : Mode → Part → Type → Type 1 where
  /-- Nothing is left to do. -/
  | done {m : Mode} {p : Part} {α : Type} (a : α) : Plan ρ μ m p α
  /-- A calculation that may fail. -/
  | calculate {m : Mode} {p : Part} {α β : Type} (c : Calculation ρ μ β)
      (next : β → Plan ρ μ m p α) : Plan ρ μ m p α
  /-- Dice are asked for. -/
  | roll {p : Part} {α : Type} (count sides : Nat) (next : List UInt32 → Plan ρ μ .sample p α) :
      Plan ρ μ .sample p α
  /-- The binding of a name is looked up. -/
  | lookup {m : Mode} {p : Part} {α : Type} (name : String) (next : Binding ρ μ → Plan ρ μ m p α) :
      Plan ρ μ m p α
  /-- The function of a shape is called. What the parameters of a declared one hold is found out
  before its body is run. -/
  | call {m : Mode} {p : Part} {α : Type} (shape : Shape)
      (builtin : Builtin → Plan ρ μ m .expression (m.Answer ρ μ))
      (bind : Signature → Plan ρ μ m .expression (List (String × Binding ρ μ)))
      (next : m.Answer ρ μ → Plan ρ μ m p α) : Plan ρ μ m p α
  /-- Statements are run in a fresh frame. -/
  | frame {m : Mode} {p : Part} {α β : Type} (inner : Plan ρ μ m .statement β)
      (next : β → Plan ρ μ m p α) : Plan ρ μ m p α
  /-- A law is computed on the way of a sample. -/
  | exact {p : Part} {α β : Type} (inner : Plan ρ μ .exact .expression β)
      (next : β → Plan ρ μ .sample p α) : Plan ρ μ .sample p α
  /-- An expression of a statement is evaluated. -/
  | evaluate {m : Mode} {α β : Type} (inner : Plan ρ μ m .expression β)
      (next : β → Plan ρ μ m .statement α) : Plan ρ μ m .statement α
  /-- A name is bound in the frame in which the statement is run. -/
  | assign {m : Mode} {α : Type} (name : String) (b : Binding ρ μ)
      (next : Plan ρ μ m .statement α) : Plan ρ μ m .statement α
  /-- A function is declared. -/
  | declare {m : Mode} {α : Type} (signature : Signature) (body : List (Expr ρ))
      (next : Plan ρ μ m .statement α) : Plan ρ μ m .statement α

variable {ρ μ : Type} [Scalar ρ] {m : Mode} {p : Part} {α β γ : Type}

namespace Run

/-- A calculation under the limits of the session. -/
def calculate (c : Calculation ρ μ α) : Run ρ μ α := do
  ofExcept (c.under (← read (·.limits)))

/-- The activation of a function: its body is run in a fresh frame inside a scope, in which the
parameters are bound. -/
def activation (scope : Scope) (bs : List (String × Binding ρ μ)) (act : Run ρ μ α) :
    Run ρ μ α := do
  let inner ← extend scope
  within inner (bs.forM fun b => assign b.1 b.2)
  activate inner act

/-- Goes on with the function that is registered under a shape, as it is built in or declared. -/
def dispatch (shape : Shape) (builtin : Builtin → Run ρ μ α) (user : Closure ρ → Run ρ μ α) :
    Run ρ μ α := do
  match ← function shape with
  | .builtin b => builtin b
  | .user c => user c

/-- A calculation that counts nothing does not depend on the limits. -/
@[simp] lemma calculate_ofExcept (x : Except (Fault ρ μ) α) :
    (calculate (.ofExcept x) : Run ρ μ α) = ofExcept x := rfl

end Run

namespace Plan

/-! ## Plans in turn -/

/-- A plan, and then another that depends on its result. -/
def bind {m : Mode} {p : Part} {α β : Type} :
    Plan ρ μ m p α → (α → Plan ρ μ m p β) → Plan ρ μ m p β
  | done a, f => f a
  | calculate c next, f => calculate c fun b => (next b).bind f
  | roll count sides next, f => roll count sides fun faces => (next faces).bind f
  | lookup name next, f => lookup name fun b => (next b).bind f
  | call shape builtin pairs next, f => call shape builtin pairs fun a => (next a).bind f
  | frame inner next, f => frame inner fun b => (next b).bind f
  | exact inner next, f => exact inner fun b => (next b).bind f
  | evaluate inner next, f => evaluate inner fun b => (next b).bind f
  | assign name b next, f => assign name b (next.bind f)
  | declare signature body next, f => declare signature body (next.bind f)

instance : Monad (Plan ρ μ m p) where
  pure := done
  bind := bind

/-- The result of a calculation that may fail. -/
def ofExcept (x : Except (Fault ρ μ) α) : Plan ρ μ m p α := calculate (.ofExcept x) done

/-- The result of a calculation that counts outcomes. -/
def ofCalculation (c : Calculation ρ μ α) : Plan ρ μ m p α := calculate c done

/-- A failure with a cause. -/
def fail (f : Fault ρ μ) : Plan ρ μ m p α := ofExcept (.error f)

/-- A plan for every item of a list, one after the other. -/
def each {δ : Type u} (f : δ → Plan ρ μ m p α) : List δ → Plan ρ μ m p (List α)
  | [] => done []
  | d :: ds => do
    let a ← f d
    let as ← each f ds
    return a :: as

/-! ## Taking the steps -/

/-- The computation that takes the steps of a plan, given how bodies are run. -/
def run (enter : Enter ρ μ) {m : Mode} {p : Part} {α : Type} : Plan ρ μ m p α → Run ρ μ α
  | done a => pure a
  | calculate c next => do (next (← Run.calculate c)).run enter
  | roll count sides next => do (next (← Run.roll count sides)).run enter
  | lookup name next => do (next (← Run.lookup name)).run enter
  | call shape builtin pairs next => do
    let a ← Run.dispatch shape (fun b => (builtin b).run enter) fun c => do
      Run.activation c.scope (← (pairs c.signature).run enter) (enter c.body m)
    (next a).run enter
  | frame inner next => do (next (← Run.inFreshFrame (inner.run enter))).run enter
  | exact inner next => do (next (← inner.run enter)).run enter
  | evaluate inner next => do (next (← inner.run enter)).run enter
  | assign name b next => do
    Run.assign name b
    next.run enter
  | declare signature body next => do
    Run.declare signature body
    next.run enter

section Run

variable (enter : Enter ρ μ)

/-- A value that is given. -/
@[simp] lemma run_pure (a : α) : (pure a : Plan ρ μ m p α).run enter = pure a := rfl

/-- The steps of two plans are taken in turn. -/
@[simp] theorem run_bind (x : Plan ρ μ m p α) (f : α → Plan ρ μ m p β) :
    (x >>= f).run enter = x.run enter >>= fun a => (f a).run enter := by
  show (x.bind f).run enter = _
  induction x with
  | done a => simp only [bind, run, pure_bind]
  | calculate c next ih => simp only [bind, run, bind_assoc, ih]
  | roll count sides next ih => simp only [bind, run, bind_assoc, ih]
  | lookup name next ih => simp only [bind, run, bind_assoc, ih]
  | call shape builtin pairs next _ _ ih => simp only [bind, run, bind_assoc, ih]
  | frame inner next _ ih => simp only [bind, run, bind_assoc, ih]
  | exact inner next _ ih => simp only [bind, run, bind_assoc, ih]
  | evaluate inner next _ ih => simp only [bind, run, bind_assoc, ih]
  | assign name b next ih => simp only [bind, run, bind_assoc, ih]
  | declare signature body next ih => simp only [bind, run, bind_assoc, ih]

/-- The result of a calculation that may fail. -/
@[simp] lemma run_ofExcept (x : Except (Fault ρ μ) α) :
    (ofExcept x : Plan ρ μ m p α).run enter = Run.ofExcept x := by
  simp only [ofExcept, run, Run.calculate_ofExcept, bind_pure]

/-- The result of a calculation that counts outcomes. -/
@[simp] lemma run_ofCalculation (c : Calculation ρ μ α) :
    (ofCalculation c : Plan ρ μ m p α).run enter = Run.calculate c := by
  simp only [ofCalculation, run, bind_pure]

/-- A failure with a cause. -/
@[simp] lemma run_fail (f : Fault ρ μ) :
    (fail f : Plan ρ μ m p α).run enter = Run.fail f :=
  run_ofExcept enter (.error f)

/-- The steps of a plan for every item of a list are taken item by item. -/
lemma run_each {δ : Type u} {δ' : Type} (g : δ → δ') {f : δ → Plan ρ μ m p α}
    {k : δ' → Run ρ μ α} (h : ∀ d, (f d).run enter = k (g d)) (ds : List δ) :
    (each f ds).run enter = (ds.map g).mapM k := by
  induction ds with
  | nil => rfl
  | cons d ds ih =>
    rw [List.map_cons, List.mapM_cons, each, run_bind, h]
    refine congrArg (_ >>= ·) (funext fun a => ?_)
    rw [run_bind, ih]
    rfl

end Run

end Plan

end DiceCalculus
