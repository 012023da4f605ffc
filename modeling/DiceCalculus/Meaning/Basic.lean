import DiceCalculus.Law.Dice
import DiceCalculus.Session

set_option autoImplicit false
set_option relaxedAutoImplicit false

/-!
# Meanings

An expression can be sampled or its law can be computed, as a whole or component by component; it
can be stored in a variable, and it can stand as a statement in a block. Its meaning is its answer
to all of these, each a computation on a session.

## Main definitions

* `Mode` — sampling, or computing laws; `Mode.Answer` — the values or laws that a mode computes
  with.
* `Flow` — how a statement hands over to the next one.
* `Meaning` — the answers of an expression.
* `Meaning.ofViews`, `Meaning.ofStatement` — the meanings of an expression with one component, and
  of a statement.
* `Meaning.block` and its siblings — the meaning of each form of expression in terms of the
  meanings of its parts.

## Design

The meanings of the forms are defined here one by one and put together over the syntax in
`DiceCalculus.Meaning.Eval`. Calls are the exception, since what they run is not a part of them;
they are defined in `DiceCalculus.Meaning.Call`.
-/

namespace DiceCalculus

/-- How an expression is evaluated. -/
inductive Mode where
  /-- Dice are rolled, and expressions have values. -/
  | sample
  /-- Nothing is rolled, and expressions have laws. -/
  | exact
  deriving DecidableEq

/-- What a mode computes: values or laws. -/
@[reducible] def Mode.Answer (ρ μ : Type) [Scalar ρ] : Mode → Type
  | .sample => Value ρ μ
  | .exact => Law ρ μ

/-- How a statement hands over to the next one. -/
inductive Flow (α : Type) where
  /-- The next statement follows. The statement may have a value. -/
  | next (value : Option α)
  /-- The statements around it are ended with a value. -/
  | ended (value : α)

/-- The value of a block whose statements ended in a flow. -/
def Flow.result {ρ μ α : Type} : Flow α → Except (Fault ρ μ) α
  | .next (some a) => .ok a
  | .next none => .error .noValue
  | .ended a => .ok a

/-- The answers of an expression. -/
structure Meaning (ρ μ : Type) [Scalar ρ] where
  /-- The sampled value. -/
  value : Run ρ μ (Value ρ μ)
  /-- The sampled values of the components. -/
  items : Run ρ μ (List (Value ρ μ))
  /-- The law. -/
  law : Run ρ μ (Law ρ μ)
  /-- The laws of the components. -/
  laws : Run ρ μ (List (Law ρ μ))
  /-- What a variable holds to which the expression is assigned. -/
  stored : Mode → Run ρ μ (Binding ρ μ)
  /-- The expression as a statement. -/
  step : (m : Mode) → Run ρ μ (Flow (m.Answer ρ μ))

namespace Meaning

variable {ρ μ : Type} [Scalar ρ]

/-- The sampled value or the law. -/
def answer (x : Meaning ρ μ) : (m : Mode) → Run ρ μ (m.Answer ρ μ)
  | .sample => x.value
  | .exact => x.law

/-- The meaning of an expression that is its own only component. -/
def ofViews (value : Run ρ μ (Value ρ μ)) (law : Run ρ μ (Law ρ μ)) : Meaning ρ μ where
  value := value
  items := return [← value]
  law := law
  laws := return [← law]
  stored
    | .sample => return .value (← value)
    | .exact => return .law (← law)
  step
    | .sample => return .next (some (← value))
    | .exact => return .next (some (← law))

/-- The meaning of a statement, which has no value and no law. -/
def ofStatement (kind : Kind) (step : (m : Mode) → Run ρ μ (Flow (m.Answer ρ μ))) :
    Meaning ρ μ where
  value := Run.fail (.unsupported .evaluate (.expr kind))
  items := Run.fail (.unsupported .evaluate (.expr kind))
  law := Run.fail (.unsupported .takeLaw (.expr kind))
  laws := Run.fail (.unsupported .takeLaw (.expr kind))
  stored
    | .sample => Run.fail (.unsupported .evaluate (.expr kind))
    | .exact => Run.fail (.unsupported .takeLaw (.expr kind))
  step := step

/-! ## Statement lists -/

/-- Runs statements in the current frame, up to the first that ends the list. The value of the
list is that of its last statement. -/
def runFrom (m : Mode) (last : Option (m.Answer ρ μ)) :
    List (Meaning ρ μ) → Run ρ μ (Flow (m.Answer ρ μ))
  | [] => return .next last
  | x :: xs => do
    match ← x.step m with
    | .ended a => return .ended a
    | .next a => runFrom m a xs

/-- Runs statements in the current frame. -/
def runAll (m : Mode) (xs : List (Meaning ρ μ)) : Run ρ μ (Flow (m.Answer ρ μ)) :=
  runFrom m none xs

/-- The value of statements that are run in the current frame. -/
def resultOf (m : Mode) (xs : List (Meaning ρ μ)) : Run ρ μ (m.Answer ρ μ) := do
  Run.ofExcept (← runAll m xs).result

/-! ## Forms of expressions -/

variable [Mass μ]

/-- A number is its own value and certain. -/
def literal (x : Number ρ) : Meaning ρ μ :=
  ofViews (return .number x) (return .certain (.number x))

/-- An operator evaluates its left operand first. Its operands have independent laws. -/
def binary (op : Operator) (left right : Meaning ρ μ) : Meaning ρ μ :=
  ofViews
    (do
      let x ← Run.ofExcept (← left.value).toNumber
      let y ← Run.ofExcept (← right.value).toNumber
      return .number (← Run.ofExcept (op.apply x y)))
    (do
      let l ← left.law
      let l' ← right.law
      Run.ofExcept (Law.operate (← Run.read (·.limits)) op l l'))

/-- The faces of a roll. The number of sides is evaluated before the number of dice. -/
def faces (count sides : Meaning ρ μ) : Run ρ μ (List (Number ρ)) := do
  let m ← Run.ofExcept (Dice.sides (← Run.ofExcept (← sides.value).toNumber))
  let n ← Run.ofExcept (Dice.count (← Run.ofExcept (← count.value).toNumber))
  return (← Run.roll n m).map fun face => .int face.toInt32

/-- A roll is a number, the sum of its faces, and has its faces as components. -/
def dice (count sides : Meaning ρ μ) : Meaning ρ μ :=
  let whole : Meaning ρ μ := ofViews
    (return .number ((← faces count sides).foldl (· + ·) .zero))
    (do
      let l ← count.law
      let l' ← sides.law
      Run.ofExcept (Dice.law (← Run.read (·.limits)) l l'))
  { whole with
    items := return (← faces count sides).map .number
    laws := do
      let l ← count.law
      let l' ← sides.law
      Run.ofExcept (Dice.laws (← Run.read (·.limits)) l l') }

/-- A sequence has the values and laws of its items as components, and no law of its own. -/
def sequence (xs : List (Meaning ρ μ)) : Meaning ρ μ :=
  let items : Run ρ μ (List (Value ρ μ)) := xs.mapM (·.value)
  let laws : Run ρ μ (List (Law ρ μ)) := xs.mapM (·.law)
  let whole : Meaning ρ μ := ofViews
    (return .sequence (← items))
    (Run.fail (.unsupported .takeLaw (.expr .sequence)))
  { whole with
    items := items
    laws := laws
    stored
      | .sample => whole.stored .sample
      | .exact => return .laws (← laws) }

/-- A variable is whatever it holds. Stored in another variable it is passed on as it is, so that
a sequence stays a sequence. -/
def var (name : String) : Meaning ρ μ :=
  let whole : Meaning ρ μ := ofViews
    (return (← Run.lookup name).toValue)
    (do Run.ofExcept (← Run.lookup name).toLaw)
  { whole with
    items := return (← Run.lookup name).items
    laws := do Run.ofExcept (← Run.lookup name).toLaws
    stored
      | .sample => whole.stored .sample
      | .exact => Run.lookup name }

/-- An assignment binds a variable in the innermost frame. -/
def assign (name : String) (x : Meaning ρ μ) : Meaning ρ μ :=
  ofStatement .assignment fun m => do
    Run.assign name (← x.stored m)
    return .next none

/-- A block runs in a fresh frame. An `output` in it ends the statements around the block too if
the block is a statement itself. -/
def block (xs : List (Meaning ρ μ)) : Meaning ρ μ :=
  let whole : Meaning ρ μ := ofViews
    (Run.inFreshFrame (resultOf .sample xs))
    (Run.inFreshFrame (resultOf .exact xs))
  { whole with step := fun m => Run.inFreshFrame (runAll m xs) }

/-- An output ends the statements around it with a value. -/
def output (x : Meaning ρ μ) : Meaning ρ μ :=
  ofStatement .output fun m => return .ended (← x.answer m)

/-- A declaration registers a function. -/
def declare (signature : Signature) (body : List (Expr ρ)) : Meaning ρ μ :=
  ofStatement .declaration fun _ => do
    Run.declare signature body
    return .next none

end Meaning

end DiceCalculus
