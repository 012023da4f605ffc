import DiceCalculus.Operator
import DiceCalculus.Slots

set_option autoImplicit false
set_option relaxedAutoImplicit false

/-!
# Dice expressions

The abstract syntax of dice expressions: numbers, operators, rolls of dice, sequences, variables,
calls and the statements of a block.

## Main definitions

* `Signature` — the name of a declared function and its parameters.
* `Expr` — an expression or a statement.
* `Kind`, `Capability` — what an expression is, and what it can be asked for.
* `Expr.ofCall` — a call with the shape of its arguments.

## Design

The shape of a call is part of its syntax, so that it is computed once. A call built by
`Expr.ofCall` has the shape of its own arguments.
-/

namespace DiceCalculus

/-- The name of a function and its parameters, by position and by keyword. -/
structure Signature where
  /-- The name of the function. -/
  name : String
  /-- The names of the parameters. -/
  parameters : Slots String
  deriving DecidableEq, Inhabited

namespace Signature

/-- The shape of the calls that a function answers. -/
def shape (s : Signature) : Shape := s.parameters.shape s.name

/-- The first element of a list that occurs in it before. -/
def firstRepeated? : (seen rest : List String) → Option String
  | _, [] => none
  | seen, p :: rest => if p ∈ seen then some p else firstRepeated? (p :: seen) rest

/-- The first parameter, in the order of the places, whose name is taken already. -/
def repeatedParameter? (s : Signature) : Option String := firstRepeated? [] s.parameters.items

end Signature

/-- An expression or a statement. -/
inductive Expr (ρ : Type) where
  /-- A number. -/
  | literal (x : Number ρ)
  /-- An operator between two expressions. -/
  | binary (op : Operator) (left right : Expr ρ)
  /-- A roll of a number of dice with a number of sides. -/
  | dice (count sides : Expr ρ)
  /-- A sequence of expressions. -/
  | sequence (items : List (Expr ρ))
  /-- The value of a variable. -/
  | var (name : String)
  /-- The statement that binds a variable. -/
  | assign (name : String) (value : Expr ρ)
  /-- A call of the function with a shape. -/
  | call (shape : Shape) (arguments : Slots (Expr ρ))
  /-- Statements with a scope of their own. -/
  | block (statements : List (Expr ρ))
  /-- The statement that ends a function body with a value. -/
  | output (value : Expr ρ)
  /-- The statement that installs a function. -/
  | declare (signature : Signature) (body : List (Expr ρ))
  deriving Inhabited

/-! ## Kinds and capabilities -/

/-- What an expression can be asked for. -/
inductive Capability where
  /-- It is run for its effect and has no value. -/
  | statement
  /-- It has a sampled value and no law of its own. -/
  | evaluable
  /-- It has a sampled value and a law. -/
  | distributable
  deriving DecidableEq

/-- What an expression is. -/
inductive Kind where
  | literal
  | comparison
  | arithmetic
  | dice
  | sequence
  | var
  | assignment
  | call
  | block
  | output
  | declaration
  deriving DecidableEq

namespace Kind

/-- A kind as it is named in a message. -/
def text : Kind → String
  | literal => "a literal"
  | comparison => "a comparison"
  | arithmetic => "an arithmetic expression"
  | dice => "a dice roll"
  | sequence => "a sequence"
  | var => "a variable"
  | assignment => "an assignment"
  | call => "a function call"
  | block => "a block"
  | output => "an output statement"
  | declaration => "a function declaration"

/-- What the expressions of a kind can be asked for. -/
def capability : Kind → Capability
  | assignment | output | declaration => .statement
  | sequence => .evaluable
  | literal | comparison | arithmetic | dice | var | call | block => .distributable

end Kind

namespace Expr

variable {ρ : Type}

/-- The kind of an expression. -/
def kind : Expr ρ → Kind
  | literal _ => .literal
  | binary op _ _ => if op.isComparison then .comparison else .arithmetic
  | dice _ _ => .dice
  | sequence _ => .sequence
  | var _ => .var
  | assign _ _ => .assignment
  | call _ _ => .call
  | block _ => .block
  | output _ => .output
  | declare _ _ => .declaration

/-- The call of a function with the shape of its arguments. -/
def ofCall (name : String) (arguments : Slots (Expr ρ)) : Expr ρ :=
  .call (arguments.shape name) arguments

/-! ## Equality

Expressions are equal if they are built alike from equal numbers, in whichever form these are
written. -/

variable [Scalar ρ]

mutual

/-- Whether two expressions are equal up to the written forms of their numbers. -/
def isSame : Expr ρ → Expr ρ → Bool
  | .literal x, .literal y => x == y
  | .binary op l r, .binary op' l' r' => op == op' && l.isSame l' && r.isSame r'
  | .dice c s, .dice c' s' => c.isSame c' && s.isSame s'
  | .sequence es, .sequence es' => areSame es es'
  | .var n, .var n' => n == n'
  | .assign n e, .assign n' e' => n == n' && e.isSame e'
  | .call s ⟨es, gs⟩, .call s' ⟨es', gs'⟩ => s == s' && areSame es es' && groupsAreSame gs gs'
  | .block es, .block es' => areSame es es'
  | .output e, .output e' => e.isSame e'
  | .declare s es, .declare s' es' => s == s' && areSame es es'
  | _, _ => false

/-- Whether two lists have equal expressions at equal places. -/
def areSame : List (Expr ρ) → List (Expr ρ) → Bool
  | [], [] => true
  | e :: es, e' :: es' => e.isSame e' && areSame es es'
  | _, _ => false

/-- Whether two lists have equal groups under equal keywords. -/
def groupsAreSame : List (String × List (Expr ρ)) → List (String × List (Expr ρ)) → Bool
  | [], [] => true
  | (k, es) :: gs, (k', es') :: gs' => k == k' && areSame es es' && groupsAreSame gs gs'
  | _, _ => false

end

instance : BEq (Expr ρ) := ⟨isSame⟩

end Expr

end DiceCalculus
