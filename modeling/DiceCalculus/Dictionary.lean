set_option autoImplicit false
set_option relaxedAutoImplicit false

/-!
# Dictionaries

## Main definitions

* `Dictionary` — values by key.
* `Dictionary.find?`, `Dictionary.insert` — the value at a key, and a key with a new value.

## Main results

* `Dictionary.find?_insert` — inserting changes the value at its own key only.
-/

namespace DiceCalculus

/-- Values by key. The first entry of a key counts. -/
structure Dictionary (κ α : Type) where
  /-- The keys with their values. -/
  entries : List (κ × α)
  deriving Inhabited

namespace Dictionary

variable {κ α : Type}

/-- The dictionary without keys. -/
def empty : Dictionary κ α := ⟨[]⟩

/-- The number of keys. -/
def size (d : Dictionary κ α) : Nat := d.entries.length

/-- Whether there is no key. -/
def isEmpty (d : Dictionary κ α) : Bool := d.entries.isEmpty

variable [DecidableEq κ]

/-- The value at a key of a list of entries. -/
def findIn? (k : κ) : List (κ × α) → Option α
  | [] => none
  | (l, a) :: rest => if l = k then some a else findIn? k rest

/-- Gives a key of a list of entries a value, at its place if it is there and at the end
otherwise. -/
def insertIn (k : κ) (a : α) : List (κ × α) → List (κ × α)
  | [] => [(k, a)]
  | (l, b) :: rest => if l = k then (k, a) :: rest else (l, b) :: insertIn k a rest

/-- The value at a key. -/
def find? (d : Dictionary κ α) (k : κ) : Option α := findIn? k d.entries

/-- Whether a key has a value. -/
def contains (d : Dictionary κ α) (k : κ) : Bool := (d.find? k).isSome

/-- The dictionary with a value at a key, in place of the value that was there. -/
def insert (d : Dictionary κ α) (k : κ) (a : α) : Dictionary κ α := ⟨insertIn k a d.entries⟩

/-- Inserting changes the value at its own key only. -/
theorem find?_insert (d : Dictionary κ α) (k l : κ) (a : α) :
    (d.insert k a).find? l = if k = l then some a else d.find? l := by
  show findIn? l (insertIn k a d.entries) = if k = l then some a else findIn? l d.entries
  induction d.entries with
  | nil => rfl
  | cons e rest ih =>
    obtain ⟨m, b⟩ := e
    by_cases hm : m = k
    · subst hm
      simp only [insertIn, findIn?, if_pos]
      split <;> rfl
    · simp only [insertIn, if_neg hm, findIn?, ih]
      by_cases hml : m = l
      · rw [if_pos hml, if_pos hml, if_neg fun hkl => hm (hml.trans hkl.symm)]
      · rw [if_neg hml, if_neg hml]

end Dictionary

end DiceCalculus
