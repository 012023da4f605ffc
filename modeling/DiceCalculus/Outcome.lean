import DiceCalculus.Number

set_option autoImplicit false
set_option relaxedAutoImplicit false

/-!
# Outcomes

An outcome is what a law gives a mass to: a non-empty tuple of atoms. An atom is a number, or the
mark of a die that was not rolled.

## Main definitions

* `Atom` — a number or `Atom.absent`, which lies below every number.
* `Outcome` — a non-empty tuple of atoms, in lexicographic order.

## Main results

The orders of atoms and of outcomes are total and transitive (the `Std.TransOrd` instances), both
because they are the orders of lists.
-/

namespace DiceCalculus

/-! ## Atoms -/

/-- One component of an outcome. -/
inductive Atom (ρ : Type) where
  /-- A die that was not rolled. -/
  | absent
  /-- A number that was rolled or computed. -/
  | number (x : Number ρ)
  deriving DecidableEq, Inhabited

namespace Atom

variable {ρ : Type}

/-- The number of an atom that is not absent. -/
def number? : Atom ρ → Option (Number ρ)
  | .absent => none
  | .number x => some x

variable [Scalar ρ]

/-- An absent die lies below every number. -/
protected def compare : Atom ρ → Atom ρ → Ordering
  | .absent, .absent => .eq
  | .absent, .number _ => .lt
  | .number _, .absent => .gt
  | .number x, .number y => compare x y

instance : Ord (Atom ρ) := ⟨Atom.compare⟩

/-- Atoms are equal if neither is below the other. -/
instance : BEq (Atom ρ) := ⟨fun a b => compare a b == .eq⟩

/-- An atom compares as the list of its numbers does. -/
theorem compare_eq_compare_toList (a b : Atom ρ) :
    compare a b = compare a.number?.toList b.number?.toList := by
  cases a with
  | absent => cases b <;> rfl
  | number x =>
    cases b with
    | absent => rfl
    | number y =>
      show compare x y = List.compareLex compare [x] [y]
      rw [List.compareLex_cons_cons, List.compareLex_nil_nil, Ordering.then_eq]

/-- The order of atoms is total and transitive. -/
instance : Std.TransOrd (Atom ρ) where
  eq_swap {a b} := by
    rw [compare_eq_compare_toList, compare_eq_compare_toList]
    exact Std.OrientedCmp.eq_swap
  isLE_trans {a b c} hab hbc := by
    rw [compare_eq_compare_toList] at hab hbc ⊢
    exact Std.TransCmp.isLE_trans hab hbc

/-- The greater of two atoms, and the second of two equal ones. -/
protected def max (a b : Atom ρ) : Atom ρ := if compare a b = .gt then a else b

/-- The smaller of two atoms, and the first of two equal ones. -/
protected def min (a b : Atom ρ) : Atom ρ := if compare a b = .gt then b else a

end Atom

/-! ## Tuples of atoms -/

/-- A non-empty tuple of atoms. -/
structure Outcome (ρ : Type) where
  /-- The first component. -/
  head : Atom ρ
  /-- The other components. -/
  tail : List (Atom ρ)
  deriving DecidableEq, Inhabited

namespace Outcome

variable {ρ : Type}

/-- The outcome with one component. -/
def single (a : Atom ρ) : Outcome ρ := ⟨a, []⟩

/-- The outcome with the components of a list, which must have one. -/
def ofList? : List (Atom ρ) → Option (Outcome ρ)
  | [] => none
  | a :: as => some ⟨a, as⟩

/-- The components in order. -/
def atoms (o : Outcome ρ) : List (Atom ρ) := o.head :: o.tail

/-- The number of components. -/
def arity (o : Outcome ρ) : Nat := o.atoms.length

/-- The component of an outcome that has only one. -/
def only? (o : Outcome ρ) : Option (Atom ρ) :=
  match o.tail with
  | [] => some o.head
  | _ :: _ => none

/-- The components of one outcome followed by those of another. -/
def append (o p : Outcome ρ) : Outcome ρ := ⟨o.head, o.tail ++ p.atoms⟩

instance : Append (Outcome ρ) := ⟨append⟩

/-- The components of a joint outcome. -/
@[simp] theorem atoms_append (o p : Outcome ρ) : (o ++ p).atoms = o.atoms ++ p.atoms := rfl

variable [Scalar ρ]

/-- Outcomes are compared component by component, and an outcome lies below its extensions. -/
instance : Ord (Outcome ρ) := ⟨compareOn atoms⟩

/-- Outcomes are equal if neither is below the other. -/
instance : BEq (Outcome ρ) := ⟨fun o p => compare o p == .eq⟩

/-- The order of outcomes is total and transitive. -/
instance : Std.TransOrd (Outcome ρ) :=
  inferInstanceAs (Std.TransCmp (compareOn (atoms (ρ := ρ))))

end Outcome

end DiceCalculus
