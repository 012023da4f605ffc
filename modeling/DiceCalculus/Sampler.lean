set_option autoImplicit false
set_option relaxedAutoImplicit false

/-!
# Samplers and rollers

A sampler is a computation that may ask for dice: it is finished, or it asks for a number of dice
with a number of sides and goes on with the faces. Where the faces come from is not its concern;
a roller answers its requests one after the other.

## Main definitions

* `Sampler` — the tree of the requests of a computation, branching on their answers.
* `Roller` — a source of faces with a state of its own.
* `Sampler.play` — a computation whose requests are answered by a roller.
* `Recorded` — a roller that keeps the requests it got.

## Main results

* `Sampler` is a lawful monad.
* `Sampler.play_bind` — playing a computation and then another is playing the two in turn.

## Design

A computation is not run on a roller but *is* its tree of requests. What does not depend on the
roller is then a statement about the tree: a computation that never rolls is finished, two
computations with the same requests are equal, and the probability of a result is the share of
the branches that lead to it.
-/

namespace DiceCalculus

/-- A computation that may ask for dice. -/
inductive Sampler (α : Type) where
  /-- The computation is finished. -/
  | done (a : α)
  /-- It asks for a number of dice with a number of sides and goes on with their faces. -/
  | roll (count sides : Nat) (next : List UInt32 → Sampler α)

namespace Sampler

variable {α β γ : Type}

/-- A computation followed by another that depends on its result. -/
def bind : Sampler α → (α → Sampler β) → Sampler β
  | done a, f => f a
  | roll count sides next, f => roll count sides fun faces => (next faces).bind f

instance : Monad Sampler where
  pure := done
  bind := bind

/-- The request for dice alone. -/
def request (count sides : Nat) : Sampler (List UInt32) := roll count sides done

/-! ## Laws of the monad -/

/-- A computation that gives its value is finished. -/
@[simp] theorem pure_eq_done (a : α) : (pure a : Sampler α) = done a := rfl

/-- Behind a finished computation the next one goes on with its result. -/
@[simp] theorem done_bind (a : α) (f : α → Sampler β) : done a >>= f = f a := rfl

/-- A request for dice comes before what follows the computation that makes it. -/
@[simp] theorem roll_bind (count sides : Nat) (next : List UInt32 → Sampler α)
    (f : α → Sampler β) :
    roll count sides next >>= f = roll count sides fun faces => next faces >>= f := rfl

/-- Doing nothing after a computation changes nothing. -/
theorem bind_done (t : Sampler α) : t >>= done = t := by
  induction t with
  | done a => rfl
  | roll count sides next ih => exact congrArg (roll count sides) (funext ih)

/-- Computations in turn may be grouped in either way. -/
theorem bind_assoc (t : Sampler α) (f : α → Sampler β) (g : β → Sampler γ) :
    t >>= f >>= g = t >>= fun a => f a >>= g := by
  induction t with
  | done a => rfl
  | roll count sides next ih => exact congrArg (roll count sides) (funext ih)

instance : LawfulMonad Sampler :=
  LawfulMonad.mk' Sampler bind_done (fun _ _ => rfl) bind_assoc

end Sampler

/-! ## Rollers -/

/-- A source of faces with a state of its own. -/
class Roller (σ : Type) where
  /-- The faces of a number of dice with a number of sides, in roll order. -/
  roll : (count sides : Nat) → σ → List UInt32 × σ

namespace Sampler

variable {α β σ : Type} [Roller σ]

/-- Answers the requests of a computation by a roller. -/
def play : Sampler α → σ → α × σ
  | done a, s => (a, s)
  | roll count sides next, s =>
    let (faces, s') := Roller.roll count sides s
    (next faces).play s'

/-- Playing a computation and then another is playing the two in turn. -/
theorem play_bind (t : Sampler α) (f : α → Sampler β) (s : σ) :
    (t >>= f).play s = (f (t.play s).1).play (t.play s).2 := by
  induction t generalizing s with
  | done a => rfl
  | roll count sides next ih => exact ih _ _

end Sampler

/-- A roller with the requests it got, the last one first. -/
structure Recorded (σ : Type) where
  /-- The state of the roller. -/
  state : σ
  /-- The numbers of dice and of sides that were asked for. -/
  requests : List (Nat × Nat)

namespace Recorded

variable {σ : Type}

/-- A roller that got no request yet. -/
def ofState (s : σ) : Recorded σ := ⟨s, []⟩

instance [Roller σ] : Roller (Recorded σ) where
  roll count sides r :=
    let (faces, s) := Roller.roll count sides r.state
    (faces, ⟨s, (count, sides) :: r.requests⟩)

end Recorded

end DiceCalculus
