import DiceCalculus.Dictionary
import DiceCalculus.Expr
import DiceCalculus.Scope

set_option autoImplicit false
set_option relaxedAutoImplicit false

/-!
# Functions and their registry

A call is answered by the function that is registered under its shape, be it built in or
declared.

## Main definitions

* `Builtin` — the functions that every program starts with.
* `Closure` — a declared function with the scope in which it was declared.
* `Function` — a function of either sort.
* `Registry` — the functions by shape.
* `Registry.standard` — the registry of the built-in functions.
-/

namespace DiceCalculus

/-- A function that every program starts with. -/
inductive Builtin where
  /-- The greatest item of a sequence. -/
  | max
  /-- One of two branches, chosen by a test. -/
  | branch
  /-- The law of an expression, taken as a value. -/
  | law
  deriving DecidableEq

namespace Builtin

/-- All built-in functions. -/
def all : List Builtin := [max, branch, law]

/-- The name of a built-in function. -/
def name : Builtin → String
  | max => "max"
  | branch => "if"
  | law => "distribution"

/-- The shape under which a built-in function is registered. -/
def shape (b : Builtin) : Shape :=
  .ofKeywords b.name 1 <|
    match b with
    | max | law => []
    | branch => [("then", 1), ("else", 1)]

end Builtin

/-- A declared function. -/
structure Closure (ρ : Type) where
  /-- The name and the parameters. -/
  signature : Signature
  /-- The statements that a call runs. -/
  body : List (Expr ρ)
  /-- The scope of the declaration. -/
  scope : Scope

/-- A function of either sort. -/
inductive Function (ρ : Type) where
  /-- A built-in function. -/
  | builtin (b : Builtin)
  /-- A declared function. -/
  | user (c : Closure ρ)

/-- The functions by shape. -/
abbrev Registry (ρ : Type) := Dictionary Shape (Function ρ)

/-- The registry of the built-in functions. -/
def Registry.standard {ρ : Type} : Registry ρ :=
  Builtin.all.foldl (fun r b => r.insert b.shape (.builtin b)) .empty

end DiceCalculus
