import DiceCalculus.Decimal.Layout
import DiceCalculus.Expr
import DiceCalculus.Text.Quoted

set_option autoImplicit false
set_option relaxedAutoImplicit false

/-!
# Faults

What can go wrong when an expression is sampled or its law is computed. A fault is a cause, and
its message is a function of the cause.

## Main definitions

* `Fault` — the causes.
* `Fault.message` — the text that reports a cause.
* `Number.text` — the text of a number.
-/

namespace DiceCalculus

/-! ## Subjects of a message -/

/-- What was asked for in vain. -/
inductive Action where
  | evaluate
  | takeLaw
  | doArithmetic
  | roll
  deriving DecidableEq

namespace Action

/-- An action as it is named in a message. -/
def text : Action → String
  | evaluate => "evaluate"
  | takeLaw => "take the distribution of"
  | doArithmetic => "do arithmetic on"
  | roll => "roll"

end Action

/-- What an action was asked of. -/
inductive Subject where
  /-- An expression of a kind. -/
  | expr (kind : Kind)
  /-- A value that is a sequence. -/
  | sequenceValue
  /-- A variable that is bound to a sequence of laws. -/
  | sequenceVariable
  /-- A die that was not rolled. -/
  | absentDie
  deriving DecidableEq

namespace Subject

/-- A subject as it is named in a message. -/
def text : Subject → String
  | expr kind => kind.text
  | sequenceValue => "a sequence value"
  | sequenceVariable => "a sequence variable"
  | absentDie => "an absent die"

end Subject

/-- What a value is. -/
inductive ValueKind where
  | number
  | sequence
  | law
  deriving DecidableEq

namespace ValueKind

/-- A kind of value as it is named in a message. -/
def text : ValueKind → String
  | number => "a number"
  | sequence => "a sequence"
  | law => "a distribution"

end ValueKind

/-! ## Faults -/

/-- The cause of a failure. -/
inductive Fault (ρ μ : Type) where
  /-- No function has the shape of a call. -/
  | unknownShape (shape : Shape)
  /-- A variable has no binding in the scope. -/
  | unboundVariable (name : String)
  /-- Something was asked of a subject that cannot do it. -/
  | unsupported (action : Action) (subject : Subject)
  /-- The law of an expression does not have mass one. -/
  | notNormalized (total : μ)
  /-- The right operand of a division is zero. -/
  | divisionByZero
  /-- More dice were asked for than the limit allows. -/
  | tooManyRolls
  /-- A law would have more outcomes than the limit allows. -/
  | tooManyOutcomes (limit : Nat)
  /-- Calls are nested deeper than the limit allows. -/
  | tooDeep (limit : Nat)
  /-- A block was asked for a value and has none. -/
  | noValue
  /-- Two parameters of a function have one name. -/
  | repeatedParameter (name : String)
  /-- A number was needed, and the value is something else. -/
  | notANumber (found : ValueKind)
  /-- A number of dice is not an integer, or is negative. -/
  | badCount (x : Number ρ)
  /-- A number of sides is not an integer, or is not positive. -/
  | badSides (x : Number ρ)
  /-- An operand of a roll has several components. -/
  | compoundOperand (components : Nat)
  /-- An operator was given an outcome that is not a pair. -/
  | wrongArity (op : Operator) (components : Nat)
  /-- A call has no argument at a position, counted from zero. -/
  | missingPositional (position : Nat)
  /-- A call has no argument under a keyword. -/
  | missingKeyword (keyword : String)
  deriving DecidableEq

/-! ## Texts -/

/-- The text of a number. A real is never written like an integer. -/
def Number.text : Number Float → String
  | .int i => toString i.toInt
  | .real x => Decimal.Layout.marked.write x

/-- The text of a mass. -/
def massText (x : Float) : String := Decimal.Layout.plain.write x

/-- The text that reports a cause. -/
def Fault.message : Fault Float Float → String
  | unknownShape shape => "no function matches the call " ++ shape.text
  | unboundVariable name => "variable $" ++ name ++ " is not bound"
  | unsupported action subject => "cannot " ++ action.text ++ " " ++ subject.text
  | notNormalized total => "distribution has total mass " ++ massText total ++ ", expected 1"
  | divisionByZero => "cannot divide by zero"
  | tooManyRolls => "too many dice rolled"
  | tooManyOutcomes limit => "distribution has more than " ++ toString limit ++ " outcomes"
  | tooDeep limit => "function calls nested deeper than " ++ toString limit
  | noValue => "block produced no value"
  | repeatedParameter name => "parameter $" ++ name ++ " is declared more than once"
  | notANumber found => "expected a number, found " ++ found.text
  | badCount x => "dice count must be a non-negative integer, not " ++ x.text
  | badSides x => "dice sides must be a positive integer, not " ++ x.text
  | compoundOperand components =>
    "dice operands must be scalar, found " ++ toString components ++ " components"
  | wrongArity op components =>
    "operator " ++ op.symbol ++ " expects 2 operands, found " ++ toString components
  | missingPositional position => "missing positional argument " ++ toString (position + 1)
  | missingKeyword keyword => "missing argument " ++ keyword ++ ":"

/-- The text that reports a written form that no operator has. -/
def Operator.unknownMessage (s : String) : String := "unknown operator " ++ Text.quoted s

end DiceCalculus
