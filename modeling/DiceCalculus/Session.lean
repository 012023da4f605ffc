import DiceCalculus.Limits
import DiceCalculus.Registry
import DiceCalculus.Sampler

set_option autoImplicit false
set_option relaxedAutoImplicit false

/-!
# Sessions

A session is what expressions are evaluated in: the functions and variables that were defined so
far, and what the evaluation under way has used. Every step of an evaluation is a computation on
a session that may ask for dice and may fail.

## Main definitions

* `Session` — the state of an evaluation.
* `Stop` — why a computation ends without a result.
* `Run` — a computation on a session.
* `Run.roll` — dice, charged against the limit before they are asked for.
* `Run.within`, `Run.activate` — a computation in another scope, and in the body of a function.

## Design

A failure ends a computation but undoes nothing: the session it leaves has the functions and
variables that were defined before the failure. The scope and the depth are the exception. Both
belong to the part of the program that is being run, and `Run.within` and `Run.activate` restore
them in any case.

Running out of fuel is no fault of a program. It is kept apart from the faults, so that it can be
shown not to happen under a limit of the depth.
-/

namespace DiceCalculus

/-- The state of an evaluation. -/
structure Session (ρ μ : Type) [Scalar ρ] where
  /-- What a program may use. -/
  limits : Limits μ
  /-- The functions that were registered. -/
  registry : Registry ρ
  /-- The variables of all frames. -/
  frames : Frames ρ μ
  /-- The scope of the part of the program that is being run. -/
  scope : Scope
  /-- The number of dice that were asked for. -/
  spent : Nat
  /-- The number of calls of declared functions that are under way. -/
  depth : Nat

/-- Why a computation ends without a result. -/
inductive Stop (ρ μ : Type) where
  /-- Something went wrong. -/
  | fault (f : Fault ρ μ)
  /-- The fuel was used up before the end. -/
  | outOfFuel
  deriving DecidableEq

/-- A computation on a session that may ask for dice and may fail. -/
abbrev Run (ρ μ : Type) [Scalar ρ] :=
  ExceptT (Stop ρ μ) (StateT (Session ρ μ) Sampler)

variable {ρ μ : Type} [Scalar ρ] {α : Type}

namespace Session

/-- A session in which nothing has happened yet. -/
def start (limits : Limits μ) : Session ρ μ where
  limits := limits
  registry := .standard
  frames := .initial
  scope := .global
  spent := 0
  depth := 0

/-- Binds a global variable. -/
def bindGlobal (s : Session ρ μ) (name : String) (b : Binding ρ μ) : Session ρ μ :=
  { s with frames := s.frames.assign .global name b }

end Session

namespace Run

/-- Fails with a cause. -/
def fail (f : Fault ρ μ) : Run ρ μ α := throw (.fault f)

/-- The result of a calculation that may fail. -/
def ofExcept : Except (Fault ρ μ) α → Run ρ μ α
  | .ok a => pure a
  | .error f => fail f

/-- A value of the session. -/
def read (f : Session ρ μ → α) : Run ρ μ α := return f (← get)

/-! ## Dice -/

/-- Asks for dice. They are charged first, and a request that passes the limit is not made. -/
def roll (count sides : Nat) : Run ρ μ (List UInt32) := do
  modify fun s => { s with spent := s.spent + count }
  if ← read fun s => Limits.allows s.limits.maxRolls s.spent then
    ExceptT.lift (StateT.lift (Sampler.request count sides))
  else
    fail .tooManyRolls

/-! ## Variables -/

/-- The binding of a name in the current scope. -/
def lookup (name : String) : Run ρ μ (Binding ρ μ) := do
  match ← read fun s => s.frames.lookup? s.scope name with
  | some b => return b
  | none => fail (.unboundVariable name)

/-- Binds a name in the innermost frame of the current scope. -/
def assign (name : String) (b : Binding ρ μ) : Run ρ μ Unit :=
  modify fun s => { s with frames := s.frames.assign s.scope name b }

/-- The scope with a fresh frame inside a scope. -/
def extend (scope : Scope) : Run ρ μ Scope :=
  modifyGet fun s =>
    let (inner, frames) := s.frames.extend scope
    (inner, { s with frames := frames })

/-! ## Scopes and activations -/

/-- Runs a computation in a scope and then returns to the current one, whether or not the
computation fails. -/
def within (scope : Scope) (act : Run ρ μ α) : Run ρ μ α := ExceptT.mk do
  let outer := (← get).scope
  modify fun s => { s with scope := scope }
  let result ← act.run
  modify fun s => { s with scope := outer }
  return result

/-- Runs a computation in a fresh frame inside the current scope. -/
def inFreshFrame (act : Run ρ μ α) : Run ρ μ α := do
  let inner ← extend (← read (·.scope))
  within inner act

/-- Runs a computation in a scope one call deeper, and then returns to the current scope and depth,
whether or not the computation fails. -/
def deeper (scope : Scope) (act : Run ρ μ α) : Run ρ μ α := ExceptT.mk do
  modify fun s => { s with depth := s.depth + 1 }
  let result ← (within scope act).run
  modify fun s => { s with depth := s.depth - 1 }
  return result

/-- Runs the body of a function in a scope, one call deeper, unless the calls under way are as
many as the limit allows. -/
def activate (scope : Scope) (act : Run ρ μ α) : Run ρ μ α := do
  match ← read (·.limits.maxDepth) with
  | some limit => if limit ≤ (← read (·.depth)) then fail (.tooDeep limit)
  | none => pure ()
  deeper scope act

/-! ## Functions -/

/-- The function that answers the calls of a shape. -/
def function (shape : Shape) : Run ρ μ (Function ρ) := do
  match ← read (·.registry.find? shape) with
  | some f => return f
  | none => fail (.unknownShape shape)

/-- Registers a declared function in the current scope, unless two of its parameters have one
name. -/
def declare (signature : Signature) (body : List (Expr ρ)) : Run ρ μ Unit := do
  match signature.repeatedParameter? with
  | some name => fail (.repeatedParameter name)
  | none =>
    modify fun s =>
      { s with registry := s.registry.insert signature.shape (.user ⟨signature, body, s.scope⟩) }

end Run

end DiceCalculus
