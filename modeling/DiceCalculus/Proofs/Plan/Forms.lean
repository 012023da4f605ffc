import DiceCalculus.Proofs.Plan.Basic

set_option autoImplicit false
set_option relaxedAutoImplicit false

/-!
# The plans of an expression

Every answer of every expression is a computation that takes the steps of a plan. The plans are put
together over the syntax as the meanings are.

## Main definitions

* `Plans` — a plan for each answer of an expression.
* `Plans.binary` and its siblings — the plans of each form of expression.
* `PlannedSlots` — the plans of the arguments of a call; `PlannedSlots.answer` and
  `PlannedSlots.bind` — what the call makes of them.
* `Expr.plans` — the plans of an expression.
* `Plan.ofBody` — the plan of the body of a function.
-/

namespace DiceCalculus

/-- A plan for each answer of an expression. -/
structure Plans (ρ μ : Type) [Scalar ρ] : Type 1 where
  /-- The sampled value. -/
  value : Plan ρ μ .sample .expression (Value ρ μ)
  /-- The sampled values of the components. -/
  items : Plan ρ μ .sample .expression (List (Value ρ μ))
  /-- The law. -/
  law : Plan ρ μ .exact .expression (Law ρ μ)
  /-- The laws of the components. -/
  laws : Plan ρ μ .exact .expression (List (Law ρ μ))
  /-- What a variable holds to which the expression is assigned. -/
  stored : (m : Mode) → Plan ρ μ m .expression (Binding ρ μ)
  /-- The expression as a statement. -/
  step : (m : Mode) → Plan ρ μ m .statement (Flow (m.Answer ρ μ))

namespace Plans

variable {ρ μ : Type} [Scalar ρ]

/-- The sampled value or the law. -/
def answer (x : Plans ρ μ) : (m : Mode) → Plan ρ μ m .expression (m.Answer ρ μ)
  | .sample => x.value
  | .exact => x.law

/-- The plans of an expression that is its own only component. -/
def ofViews (value : Plan ρ μ .sample .expression (Value ρ μ))
    (law : Plan ρ μ .exact .expression (Law ρ μ)) : Plans ρ μ where
  value := value
  items := return [← value]
  law := law
  laws := return [← law]
  stored
    | .sample => return .value (← value)
    | .exact => return .law (← law)
  step
    | .sample => .evaluate value fun v => return .next (some v)
    | .exact => .evaluate law fun l => return .next (some l)

/-- The plans of a statement, which has no value and no law. -/
def ofStatement (kind : Kind)
    (step : (m : Mode) → Plan ρ μ m .statement (Flow (m.Answer ρ μ))) : Plans ρ μ where
  value := .fail (.unsupported .evaluate (.expr kind))
  items := .fail (.unsupported .evaluate (.expr kind))
  law := .fail (.unsupported .takeLaw (.expr kind))
  laws := .fail (.unsupported .takeLaw (.expr kind))
  stored
    | .sample => .fail (.unsupported .evaluate (.expr kind))
    | .exact => .fail (.unsupported .takeLaw (.expr kind))
  step := step

/-! ## Statement lists -/

/-- The plan of statements, up to the first that ends the list. -/
def runFrom (m : Mode) (last : Option (m.Answer ρ μ)) :
    List (Plans ρ μ) → Plan ρ μ m .statement (Flow (m.Answer ρ μ))
  | [] => return .next last
  | x :: xs => do
    match ← x.step m with
    | .ended a => return .ended a
    | .next a => runFrom m a xs

/-- The plan of statements that start anew. -/
def runAll (m : Mode) (xs : List (Plans ρ μ)) : Plan ρ μ m .statement (Flow (m.Answer ρ μ)) :=
  runFrom m none xs

/-- The plan of the value of statements. -/
def resultOf (m : Mode) (xs : List (Plans ρ μ)) : Plan ρ μ m .statement (m.Answer ρ μ) := do
  .ofExcept (← runAll m xs).result

/-! ## Forms of expressions -/

variable [Mass μ]

/-- The plans of a number. -/
def literal (x : Number ρ) : Plans ρ μ :=
  ofViews (return .number x) (return .certain (.number x))

/-- The plans of an operator. -/
def binary (op : Operator) (left right : Plans ρ μ) : Plans ρ μ :=
  ofViews
    (do
      let x ← .ofExcept (← left.value).toNumber
      let y ← .ofExcept (← right.value).toNumber
      return .number (← .ofExcept (op.apply x y)))
    (do
      let l ← left.law
      let l' ← right.law
      .ofCalculation (.operate op l l'))

/-- The plan of the faces of a roll. -/
def faces (count sides : Plans ρ μ) : Plan ρ μ .sample .expression (List (Number ρ)) := do
  let m ← .ofExcept (Dice.sides (← .ofExcept (← sides.value).toNumber))
  let n ← .ofExcept (Dice.count (← .ofExcept (← count.value).toNumber))
  .roll n m fun faces => return faces.map fun face => .int face.toInt32

/-- The plans of a roll. -/
def dice (count sides : Plans ρ μ) : Plans ρ μ :=
  let whole : Plans ρ μ := ofViews
    (return .number ((← faces count sides).foldl (· + ·) .zero))
    (do
      let l ← count.law
      let l' ← sides.law
      .ofCalculation (.sum l l'))
  { whole with
    items := return (← faces count sides).map .number
    laws := do
      let l ← count.law
      let l' ← sides.law
      .ofCalculation (.dice l l') }

/-- The plans of a sequence. -/
def sequence (xs : List (Plans ρ μ)) : Plans ρ μ :=
  let items : Plan ρ μ .sample .expression (List (Value ρ μ)) := .each (·.value) xs
  let laws : Plan ρ μ .exact .expression (List (Law ρ μ)) := .each (·.law) xs
  let whole : Plans ρ μ := ofViews
    (return .sequence (← items))
    (.fail (.unsupported .takeLaw (.expr .sequence)))
  { whole with
    items := items
    laws := laws
    stored
      | .sample => whole.stored .sample
      | .exact => return .laws (← laws) }

/-- The plans of a variable. -/
def var (name : String) : Plans ρ μ :=
  let whole : Plans ρ μ := ofViews
    (.lookup name fun b => return b.toValue)
    (.lookup name fun b => .ofExcept b.toLaw)
  { whole with
    items := .lookup name fun b => return b.items
    laws := .lookup name fun b => .ofExcept b.toLaws
    stored
      | .sample => whole.stored .sample
      | .exact => .lookup name .done }

/-- The plans of an assignment. -/
def assign (name : String) (x : Plans ρ μ) : Plans ρ μ :=
  ofStatement .assignment fun m =>
    .evaluate (x.stored m) fun b => .assign name b (return .next none)

/-- The plans of a block. -/
def block (xs : List (Plans ρ μ)) : Plans ρ μ :=
  let whole : Plans ρ μ := ofViews
    (.frame (resultOf .sample xs) .done)
    (.frame (resultOf .exact xs) .done)
  { whole with step := fun m => .frame (runAll m xs) .done }

/-- The plans of an output. -/
def output (x : Plans ρ μ) : Plans ρ μ :=
  ofStatement .output fun m => .evaluate (x.answer m) fun a => return .ended a

/-- The plans of a declaration. -/
def declare (signature : Signature) (body : List (Expr ρ)) : Plans ρ μ :=
  ofStatement .declaration fun _ => .declare signature body (return .next none)

end Plans

/-! ## Calls -/

/-- The plans of the arguments of a call, by position and by keyword. -/
structure PlannedSlots (ρ μ : Type) [Scalar ρ] : Type 1 where
  /-- The plans of the arguments by position. -/
  positional : List (Plans ρ μ)
  /-- The plans of the arguments by keyword. -/
  keywords : List (String × List (Plans ρ μ))

namespace PlannedSlots

variable {ρ μ : Type} [Scalar ρ]

/-- Goes on with the argument at a position. -/
def withNth {m : Mode} {p : Part} {α : Type} (args : PlannedSlots ρ μ) (position : Nat)
    (next : Plans ρ μ → Plan ρ μ m p α) : Plan ρ μ m p α :=
  match args.positional[position]? with
  | some x => next x
  | none => .fail (.missingPositional position)

/-- Goes on with the first argument under a keyword. -/
def withFirst {m : Mode} {p : Part} {α : Type} (args : PlannedSlots ρ μ) (keyword : String)
    (next : Plans ρ μ → Plan ρ μ m p α) : Plan ρ μ m p α :=
  match args.keywords.lookup keyword with
  | some (x :: _) => next x
  | _ => .fail (.missingKeyword keyword)

/-- The names of parameters with the arguments for them. -/
def zip (names : Slots String) (args : PlannedSlots ρ μ) : List (String × Plans ρ μ) :=
  names.positional.zip args.positional ++ names.keywords.flatMap fun g =>
    match args.keywords.lookup g.1 with
    | some xs => g.2.zip xs
    | none => []

/-- The plan of what the parameters of a function hold. -/
def bind (args : PlannedSlots ρ μ) (m : Mode) (signature : Signature) :
    Plan ρ μ m .expression (List (String × Binding ρ μ)) :=
  .each (fun a => return (a.1, ← a.2.stored m)) (zip signature.parameters args)

variable [Mass μ]

/-- The plan of a built-in function, sampled. -/
def value (args : PlannedSlots ρ μ) : Builtin → Plan ρ μ .sample .expression (Value ρ μ)
  | .max => args.withNth 0 fun x => do
    let numbers ← .ofExcept ((← x.items).mapM (·.toNumber))
    return .number (numbers.foldl Number.max .negInfinity)
  | .branch => args.withNth 0 fun x => do
    let test ← .ofExcept (← x.value).toNumber
    args.withFirst (if test.isZero then "else" else "then") fun chosen => chosen.value
  | .law => args.withNth 0 fun x => .exact x.law fun l => return .law l

/-- The plan of a branch of a mixture. -/
def mixBranch (args : PlannedSlots ρ μ) (keyword : String) (chance : μ) (mixture : Law ρ μ) :
    Plan ρ μ .exact .expression (Law ρ μ) :=
  if Mass.isPositive chance then
    args.withFirst keyword fun x => do
      return mixture.addScaled chance (← x.law)
  else
    return mixture

/-- The plan of a built-in function as a law. -/
def exact (args : PlannedSlots ρ μ) : Builtin → Plan ρ μ .exact .expression (Law ρ μ)
  | .max => args.withNth 0 fun x => do
    .ofCalculation (.maximum (← x.laws))
  | .branch => args.withNth 0 fun x => do
    let test ← x.law
    let mixture ← args.mixBranch "then" (Builtin.chanceOfNonzero test) .empty
    args.mixBranch "else" (test.massOf (.number .zero)) mixture
  | .law => args.withNth 0 (·.law)

/-- The plan of a built-in function in a mode. -/
def answer (args : PlannedSlots ρ μ) (b : Builtin) :
    (m : Mode) → Plan ρ μ m .expression (m.Answer ρ μ)
  | .sample => args.value b
  | .exact => args.exact b

end PlannedSlots

/-- The plans of a call. -/
def Plans.call {ρ μ : Type} [Scalar ρ] [Mass μ] (shape : Shape) (args : PlannedSlots ρ μ) :
    Plans ρ μ :=
  ofViews
    (.call shape (args.answer · .sample) (args.bind .sample) .done)
    (.call shape (args.answer · .exact) (args.bind .exact) .done)

/-! ## Expressions -/

section Expressions

variable {ρ μ : Type} [Scalar ρ] [Mass μ]

namespace Expr

mutual

/-- The plans of an expression. -/
def plans : Expr ρ → Plans ρ μ
  | .literal x => .literal x
  | .binary op left right => .binary op left.plans right.plans
  | .dice count sides => .dice count.plans sides.plans
  | .sequence es => .sequence (plansAll es)
  | .var name => .var name
  | .assign name e => .assign name e.plans
  | .call shape ⟨es, gs⟩ => .call shape ⟨plansAll es, plansGroups gs⟩
  | .block es => .block (plansAll es)
  | .output e => .output e.plans
  | .declare signature body => .declare signature body

/-- The plans of a list of expressions. -/
def plansAll : List (Expr ρ) → List (Plans ρ μ)
  | [] => []
  | e :: es => e.plans :: plansAll es

/-- The plans of groups of expressions. -/
def plansGroups : List (String × List (Expr ρ)) → List (String × List (Plans ρ μ))
  | [] => []
  | (k, es) :: gs => (k, plansAll es) :: plansGroups gs

end

end Expr

/-- The plan of the body of a function. -/
def Plan.ofBody (body : List (Expr ρ)) (m : Mode) : Plan ρ μ m .statement (m.Answer ρ μ) :=
  Plans.resultOf m (Expr.plansAll body)

end Expressions

end DiceCalculus
