set_option autoImplicit false
set_option relaxedAutoImplicit false

/-!
# Slots and shapes

The arguments of a call and the parameters of a function are laid out alike: some items by
position, and groups of items under keywords. The shape of a call says how many items there are
in each place, and a function is found by it.

## Main definitions

* `Slots` — items by position and by keyword, with the keywords in order.
* `Slots.withKeyword` — one more group; a repeated keyword replaces the earlier group.
* `Slots.zip` — the items of two layouts paired place by place.
* `Shape` — a name and the number of items in each place.
* `Slots.shape` — the shape of a layout under a name.

## Design

Groups are kept in the order of their keywords, whatever the order in which they were added, and
so are the places of a shape. Shapes are therefore equal exactly if they have the same name, the
same number of positional items and the same sizes under the same keywords.
-/

namespace DiceCalculus

/-! ## Shapes -/

/-- What a function is found by: a name, and the number of items in each place. -/
structure Shape where
  /-- The name of the function. -/
  name : String
  /-- The number of items by position. -/
  positional : Nat
  /-- The keywords with the sizes of their groups, in order and without repeats. -/
  keywords : List (String × Nat)
  deriving DecidableEq, Inhabited

namespace Shape

/-- Puts a keyword with a size into a list of such pairs, ordered by keyword and then by size. A
pair that is there already is left as it is. -/
def insertKeyword (keyword : String) (size : Nat) : List (String × Nat) → List (String × Nat)
  | [] => [(keyword, size)]
  | (k, n) :: rest =>
    match (compare keyword k).then (compare size n) with
    | .lt => (keyword, size) :: (k, n) :: rest
    | .eq => (k, n) :: rest
    | .gt => (k, n) :: insertKeyword keyword size rest

/-- The shape with a name, a number of positional items, and keywords in any order. -/
def ofKeywords (name : String) (positional : Nat) (keywords : List (String × Nat)) : Shape where
  name := name
  positional := positional
  keywords := keywords.foldl (fun ks k => insertKeyword k.1 k.2 ks) []

/-- A shape in the form of a call, with the number of items in each place: `f(1, else: 2)`. -/
def text (s : Shape) : String :=
  s.name ++ "(" ++ toString s.positional
    ++ String.join (s.keywords.map fun k => ", " ++ k.1 ++ ": " ++ toString k.2) ++ ")"

end Shape

/-! ## Items by position and by keyword -/

/-- Items by position, and groups of items by keyword. -/
structure Slots (α : Type) where
  /-- The items by position. -/
  positional : List α
  /-- The groups in the order of their keywords. -/
  keywords : List (String × List α)
  deriving DecidableEq, Inhabited

namespace Slots

variable {α β : Type}

/-- Puts a group into a list of groups ordered by keyword. A group with the same keyword is
replaced. -/
def insertGroup (keyword : String) (items : List α) :
    List (String × List α) → List (String × List α)
  | [] => [(keyword, items)]
  | (k, xs) :: rest =>
    match compare keyword k with
    | .lt => (keyword, items) :: (k, xs) :: rest
    | .eq => (keyword, items) :: rest
    | .gt => (k, xs) :: insertGroup keyword items rest

/-- The slots with only positional items. -/
def ofList (items : List α) : Slots α := ⟨items, []⟩

/-- The slots with one more group. -/
def withKeyword (s : Slots α) (keyword : String) (items : List α) : Slots α :=
  { s with keywords := insertGroup keyword items s.keywords }

/-- The slots with some positional items and groups, the groups added in turn. -/
def ofGroups (positional : List α) (groups : List (String × List α)) : Slots α :=
  groups.foldl (fun s g => s.withKeyword g.1 g.2) (ofList positional)

/-- The shape of a layout under a name. -/
def shape (name : String) (s : Slots α) : Shape :=
  .ofKeywords name s.positional.length (s.keywords.map fun g => (g.1, g.2.length))

/-- The group under a keyword. -/
def group? (s : Slots α) (keyword : String) : Option (List α) := s.keywords.lookup keyword

/-- All items, first by position and then in the order of their keywords. -/
def items (s : Slots α) : List α := s.positional ++ s.keywords.flatMap (·.2)

/-- The items of two layouts paired place by place, in the order of the first. -/
def zip (s : Slots α) (t : Slots β) : List (α × β) :=
  s.positional.zip t.positional ++ s.keywords.flatMap fun g =>
    match t.group? g.1 with
    | some ys => g.2.zip ys
    | none => []

/-- The layout with a function applied to every item. -/
def map (f : α → β) (s : Slots α) : Slots β :=
  ⟨s.positional.map f, s.keywords.map fun g => (g.1, g.2.map f)⟩

end Slots

end DiceCalculus
