import DiceCalculus.Dictionary
import DiceCalculus.Value

set_option autoImplicit false
set_option relaxedAutoImplicit false

/-!
# Scopes and frames

A frame holds the variables of one block or of one activation of a function. A scope is the chain
of frames in which a name is looked up, from the innermost outwards; it follows how the program
is written, not how it is run. Frames outlive the blocks they were made for, since a function
keeps the scope in which it was declared.

## Main definitions

* `Scope` — a chain of frames, named by their places among all frames.
* `Frames` — the variables of every frame that was ever made.
* `Frames.lookup?` — the binding of a name in the innermost frame of a scope that has one.
* `Frames.assign` — a variable of the innermost frame of a scope, bound or bound anew.
* `Frames.extend` — a scope with a fresh innermost frame.

## Design

The chain of frames belongs to the scope and not to the frames, so it is fixed when a frame is
made. What can change in a frame is its variables alone, and only `Frames.assign` changes them,
only in the innermost frame.
-/

namespace DiceCalculus

/-- A chain of frames. -/
structure Scope where
  /-- The innermost frame. -/
  frame : Nat
  /-- The frames around it, from the inside out. -/
  outer : List Nat
  deriving DecidableEq, Inhabited

namespace Scope

/-- The scope of the global variables, whose frame is the first that is made. -/
def global : Scope := ⟨0, []⟩

/-- All frames, from the innermost outwards. -/
def chain (s : Scope) : List Nat := s.frame :: s.outer

end Scope

/-- The variables of every frame, in the order in which the frames were made. -/
structure Frames (ρ μ : Type) [Scalar ρ] where
  /-- The variables of each frame with what they hold. -/
  bindings : Array (Dictionary String (Binding ρ μ))
  deriving Inhabited

namespace Frames

variable {ρ μ : Type} [Scalar ρ]

/-- The global frame alone, without variables. -/
def initial : Frames ρ μ := ⟨#[.empty]⟩

/-- The number of frames. -/
def size (fs : Frames ρ μ) : Nat := fs.bindings.size

/-- The binding of a name in a frame. -/
def find? (fs : Frames ρ μ) (frame : Nat) (name : String) : Option (Binding ρ μ) :=
  fs.bindings[frame]?.bind (·.find? name)

/-- The binding of a name in the first frame of a chain that has one. -/
def findFirst? (fs : Frames ρ μ) (name : String) : List Nat → Option (Binding ρ μ)
  | [] => none
  | frame :: rest =>
    match fs.find? frame name with
    | some b => some b
    | none => fs.findFirst? name rest

/-- The binding of a name in a scope. -/
def lookup? (fs : Frames ρ μ) (s : Scope) (name : String) : Option (Binding ρ μ) :=
  fs.findFirst? name s.chain

/-- Binds a name in the innermost frame of a scope. -/
def assign (fs : Frames ρ μ) (s : Scope) (name : String) (b : Binding ρ μ) : Frames ρ μ :=
  ⟨fs.bindings.modify s.frame (·.insert name b)⟩

/-- A scope with a fresh innermost frame, and the frames with that one. -/
def extend (fs : Frames ρ μ) (s : Scope) : Scope × Frames ρ μ :=
  (⟨fs.size, s.chain⟩, ⟨fs.bindings.push .empty⟩)

end Frames

end DiceCalculus
