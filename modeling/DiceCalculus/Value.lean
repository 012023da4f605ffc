import DiceCalculus.Binary64
import DiceCalculus.Fault
import DiceCalculus.Law.Basic

set_option autoImplicit false
set_option relaxedAutoImplicit false

/-!
# Values and bindings

A value is what an expression evaluates to when it is sampled. A binding is what a variable
holds: a value if it was sampled, and otherwise the law of an expression or the laws of the
components of a sequence.

## Main definitions

* `Value` — a number, a sequence of values, or a law taken as a value.
* `Value.toLaw` — the law of a value seen as a random variable.
* `Binding` — a value, a law or a list of laws.
* `Binding.toValue`, `Binding.items`, `Binding.toLaw`, `Binding.toLaws` — the four views of a
  binding.
-/

namespace DiceCalculus

variable {ρ μ : Type} [Scalar ρ]

/-! ## Values -/

/-- What an expression evaluates to. -/
inductive Value (ρ μ : Type) [Scalar ρ] where
  /-- A number. -/
  | number (x : Number ρ)
  /-- A sequence of values. -/
  | sequence (items : List (Value ρ μ))
  /-- A law taken as a value. -/
  | law (l : Law ρ μ)
  deriving Inhabited

namespace Value

/-- What a value is. -/
def kind : Value ρ μ → ValueKind
  | number _ => .number
  | sequence _ => .sequence
  | law _ => .law

/-- The number that a value is. -/
def toNumber : Value ρ μ → Except (Fault ρ μ) (Number ρ)
  | number x => .ok x
  | v => .error (.notANumber v.kind)

/-- The items of a sequence; any other value is its own only item. -/
def items : Value ρ μ → List (Value ρ μ)
  | sequence vs => vs
  | v => [v]

/-- The law of a value seen as a random variable: a number is certain, and a law is taken as it
is. A sequence has no law. -/
def toLaw [Mass μ] : Value ρ μ → Except (Fault ρ μ) (Law ρ μ)
  | number x => .ok (.certain (.number x))
  | sequence _ => .error (.unsupported .takeLaw .sequenceValue)
  | law l => .ok l

mutual

/-- Whether two values are equal up to the written forms of their numbers. -/
def isSame [BEq μ] : Value ρ μ → Value ρ μ → Bool
  | .number x, .number y => x == y
  | .sequence vs, .sequence ws => areSame vs ws
  | .law l, .law l' => l == l'
  | _, _ => false

/-- Whether two lists have equal values at equal places. -/
def areSame [BEq μ] : List (Value ρ μ) → List (Value ρ μ) → Bool
  | [], [] => true
  | v :: vs, w :: ws => v.isSame w && areSame vs ws
  | _, _ => false

end

instance [BEq μ] : BEq (Value ρ μ) := ⟨isSame⟩

end Value

/-! ## Bindings -/

/-- What a variable holds. -/
inductive Binding (ρ μ : Type) [Scalar ρ] where
  /-- The value of an expression that was sampled. -/
  | value (v : Value ρ μ)
  /-- The law of an expression. -/
  | law (l : Law ρ μ)
  /-- The laws of the components of a sequence. -/
  | laws (ls : List (Law ρ μ))
  deriving Inhabited

namespace Binding

/-- A binding as one value. -/
def toValue : Binding ρ μ → Value ρ μ
  | value v => v
  | law l => .law l
  | laws ls => .sequence (ls.map .law)

/-- A binding as a list of values. -/
def items : Binding ρ μ → List (Value ρ μ)
  | value v => v.items
  | law l => [.law l]
  | laws ls => ls.map .law

variable [Mass μ]

/-- A binding as one law. A sequence of laws is not one. -/
def toLaw : Binding ρ μ → Except (Fault ρ μ) (Law ρ μ)
  | value v => v.toLaw
  | law l => .ok l
  | laws _ => .error (.unsupported .takeLaw .sequenceVariable)

/-- A binding as a list of laws, one for each item of a sequence. -/
def toLaws : Binding ρ μ → Except (Fault ρ μ) (List (Law ρ μ))
  | value v => v.items.mapM (·.toLaw)
  | law l => .ok [l]
  | laws ls => .ok ls

instance [BEq μ] : BEq (Binding ρ μ) where
  beq
    | value v, value w => v == w
    | law l, law l' => l == l'
    | laws ls, laws ls' => ls == ls'
    | _, _ => false

end Binding

/-! ## Texts -/

/-- The text of an atom. -/
def Atom.text : Atom Float → String
  | .absent => "absent"
  | .number x => x.text

/-- The text of an outcome: a single component stands for itself, several between parentheses. -/
def Outcome.text (o : Outcome Float) : String :=
  match o.only? with
  | some a => a.text
  | none => "(" ++ ", ".intercalate (o.atoms.map (·.text)) ++ ")"

/-- The text of a law: a line for each outcome with its mass. -/
def Law.text (l : Law Float Float) : String :=
  "\n".intercalate (l.entries.map fun e => e.1.text ++ "\t" ++ massText e.2)

mutual

/-- The text of a value: the items of a sequence stand between brackets. -/
def Value.text : Value Float Float → String
  | .number x => x.text
  | .sequence vs => "[" ++ ", ".intercalate (textsOf vs) ++ "]"
  | .law l => Law.text l

/-- The texts of the items of a sequence. -/
def textsOf : List (Value Float Float) → List String
  | [] => []
  | v :: vs => v.text :: textsOf vs

end

end DiceCalculus
