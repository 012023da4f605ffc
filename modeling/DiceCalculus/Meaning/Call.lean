import DiceCalculus.Meaning.Basic

set_option autoImplicit false
set_option relaxedAutoImplicit false

/-!
# Calls

## Main definitions

* `Builtin.value`, `Builtin.exact` — the built-in functions, sampled and as laws.
* `Closure.activate` — the activation of a declared function.
* `Meaning.call` — a call of whatever function is registered under its shape.

## Design

How the body of a declared function is run is a parameter, `Enter`, because the body is found in
the registry and is no part of the call. The function is looked up before any argument is
evaluated, and all arguments are evaluated in the scope of the call before any parameter is bound.
-/

namespace DiceCalculus

variable {ρ μ : Type} [Scalar ρ]

/-- How the statements of a body are run in the current frame. -/
abbrev Enter (ρ μ : Type) [Scalar ρ] :=
  List (Expr ρ) → (m : Mode) → Run ρ μ (m.Answer ρ μ)

/-- The argument at a position. -/
def Slots.nth {α : Type} (args : Slots α) (position : Nat) : Except (Fault ρ μ) α :=
  match args.positional[position]? with
  | some a => .ok a
  | none => .error (.missingPositional position)

/-- The first argument under a keyword. -/
def Slots.firstOf {α : Type} (args : Slots α) (keyword : String) : Except (Fault ρ μ) α :=
  match args.group? keyword with
  | some (a :: _) => .ok a
  | _ => .error (.missingKeyword keyword)

variable [Mass μ]

/-! ## Built-in functions -/

namespace Builtin

/-- A built-in function, sampled. Of the branches of `if` only the chosen one is evaluated. -/
def value (args : Slots (Meaning ρ μ)) : Builtin → Run ρ μ (Value ρ μ)
  | max => do
    let x ← Run.ofExcept (args.nth 0)
    let numbers ← Run.ofExcept ((← x.items).mapM (·.toNumber))
    return .number (numbers.foldl Number.max .negInfinity)
  | branch => do
    let x ← Run.ofExcept (args.nth 0)
    let test ← Run.ofExcept (← x.value).toNumber
    let chosen ← Run.ofExcept (args.firstOf (if test.isZero then "else" else "then"))
    chosen.value
  | law => do
    let x ← Run.ofExcept (args.nth 0)
    return .law (← x.law)

/-- Adds a branch to a mixture, weighted by its chance. A branch without a chance is not
evaluated. -/
def mixBranch (args : Slots (Meaning ρ μ)) (keyword : String) (chance : μ)
    (mixture : Law ρ μ) : Run ρ μ (Law ρ μ) := do
  if Mass.isPositive chance then
    let x ← Run.ofExcept (args.firstOf keyword)
    return mixture.addScaled chance (← x.law)
  else
    return mixture

/-- The mass of all outcomes that are not zero, added in their order. -/
def chanceOfNonzero (test : Law ρ μ) : μ :=
  ((test.entries.filter fun e => e.1 != .single (.number .zero)).map (·.2)).foldl (· + ·)
    Mass.neutral

/-- A built-in function as a law. The law of `if` is the mixture of its branches. -/
def exact (args : Slots (Meaning ρ μ)) : Builtin → Run ρ μ (Law ρ μ)
  | max => do
    let x ← Run.ofExcept (args.nth 0)
    let ls ← x.laws
    Run.ofExcept (Law.maximum (← Run.read (·.limits)) ls)
  | branch => do
    let x ← Run.ofExcept (args.nth 0)
    let test ← x.law
    let mixture ← mixBranch args "then" (chanceOfNonzero test) .empty
    mixBranch args "else" (test.massOf (.number .zero)) mixture
  | law => do
    let x ← Run.ofExcept (args.nth 0)
    x.law

/-- A built-in function in a mode. -/
def answer (b : Builtin) (args : Slots (Meaning ρ μ)) : (m : Mode) → Run ρ μ (m.Answer ρ μ)
  | .sample => b.value args
  | .exact => b.exact args

end Builtin

/-! ## Declared functions -/

namespace Closure

/-- What the parameters of a function hold, from the arguments of a call in their order. -/
def bind (signature : Signature) (args : Slots (Meaning ρ μ)) (m : Mode) :
    Run ρ μ (List (String × Binding ρ μ)) :=
  (signature.parameters.zip args).mapM fun a => return (a.1, ← a.2.stored m)

/-- Runs the body of a function in a fresh frame inside the scope of its declaration, in which
the parameters are bound. -/
def activate (enter : Enter ρ μ) (c : Closure ρ) (args : Slots (Meaning ρ μ)) (m : Mode) :
    Run ρ μ (m.Answer ρ μ) := do
  let bindings ← bind c.signature args m
  let inner ← Run.extend c.scope
  Run.within inner (bindings.forM fun b => Run.assign b.1 b.2)
  Run.activate inner (enter c.body m)

end Closure

/-- A call in a mode. -/
def Function.answer (enter : Enter ρ μ) (f : Function ρ) (args : Slots (Meaning ρ μ))
    (m : Mode) : Run ρ μ (m.Answer ρ μ) :=
  match f with
  | .builtin b => b.answer args m
  | .user c => c.activate enter args m

/-- A call is answered by the function that is registered under its shape. -/
def Meaning.call (enter : Enter ρ μ) (shape : Shape) (args : Slots (Meaning ρ μ)) :
    Meaning ρ μ :=
  ofViews
    (do (← Run.function shape).answer enter args .sample)
    (do (← Run.function shape).answer enter args .exact)

end DiceCalculus
