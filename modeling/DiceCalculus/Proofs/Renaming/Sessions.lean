import DiceCalculus.Proofs.Run.Scoping
import Mathlib.Data.List.Forall2
import Mathlib.Data.Option.Basic

set_option autoImplicit false
set_option relaxedAutoImplicit false

/-!
# Sessions that are alike up to the names of their frames

Which place among all frames a frame has does not matter for what is evaluated, and neither do frames
that are within reach of no scope. Two sessions are alike if some of their frames correspond to one
another, bind the same, and are enough for the scopes of all registered functions.

## Main definitions

* `Renaming` — which frame of one session stands for which frame of another.
* `Renaming.insert`, `Renaming.Extends` — a renaming with one more pair, and with fresh pairs only.
* `Scope.Alike`, `Function.Alike`, `Session.Alike` — scopes, functions and sessions that are the same
  up to a renaming.

## Main results

* `Session.Alike.lookup?_eq` — in scopes that are alike the same is found.
* `Session.Alike.enter`, `Session.Alike.assign`, `Session.Alike.declare` — sessions stay alike when
  both make a frame, bind a name, or declare a function.

## Design

The scopes of two sessions that are alike need not be: they are compared on their own. In this way it
can be said what a call does that is made from two different scopes.
-/

namespace DiceCalculus

variable {ρ μ : Type} [Scalar ρ]

/-! ## Renamings -/

/-- Which frame of one session stands for which frame of another. -/
def Renaming := Nat → Nat → Prop

namespace Renaming

variable {π π' π'' : Renaming} {size size' m n : Nat}

/-- The renaming with one more pair. -/
def insert (π : Renaming) (i j : Nat) : Renaming := fun k l => π k l ∨ k = i ∧ l = j

/-- A renaming that has all pairs of another, and besides these fresh frames only. -/
structure Extends (π' π : Renaming) (size size' : Nat) : Prop where
  /-- The pairs of the other are kept. -/
  keeps : ∀ {i j}, π i j → π' i j
  /-- The frames of other pairs are fresh. -/
  fresh : ∀ {i j}, π' i j → π i j ∨ size ≤ i ∧ size' ≤ j

/-- A renaming extends itself. -/
lemma Extends.refl (π : Renaming) (size size' : Nat) : π.Extends π size size' := ⟨id, .inl⟩

/-- Extensions in turn. -/
lemma Extends.trans (h : π'.Extends π size size') (h' : π''.Extends π' m n) (hm : size ≤ m)
    (hn : size' ≤ n) : π''.Extends π size size' where
  keeps hij := h'.keeps (h.keeps hij)
  fresh hij := by
    rcases h'.fresh hij with hij | ⟨hi, hj⟩
    · exact h.fresh hij
    · exact .inr ⟨Nat.le_trans hm hi, Nat.le_trans hn hj⟩

/-- A renaming with one more pair of fresh frames extends it. -/
lemma extends_insert (π : Renaming) (size size' : Nat) :
    (π.insert size size').Extends π size size' where
  keeps := .inl
  fresh h := h.imp_right fun ⟨hi, hj⟩ => ⟨Nat.le_of_eq hi.symm, Nat.le_of_eq hj.symm⟩

end Renaming

/-! ## Scopes and functions -/

/-- Scopes whose frames stand for one another, from the inside out. -/
def Scope.Alike (π : Renaming) (scope scope' : Scope) : Prop :=
  List.Forall₂ π scope.chain scope'.chain

/-- Functions that differ in the scope of their declaration only, and there by a renaming. -/
inductive Function.Alike (π : Renaming) : Function ρ → Function ρ → Prop where
  /-- A built-in function. -/
  | builtin (b : Builtin) : Alike π (.builtin b) (.builtin b)
  /-- A declared function. -/
  | user {signature : Signature} {body : List (Expr ρ)} {scope scope' : Scope}
      (h : scope.Alike π scope') : Alike π (.user ⟨signature, body, scope⟩) (.user ⟨signature, body, scope'⟩)

/-- Registries with functions that are alike under the same shapes. -/
def Registry.Alike (π : Renaming) (r r' : Registry ρ) : Prop :=
  ∀ shape, Option.Rel (Function.Alike π) (r.find? shape) (r'.find? shape)

section Alike

variable {π π' : Renaming} {size size' : Nat} {scope scope' : Scope}

/-- Scopes stay alike by a renaming with more pairs. -/
lemma Scope.Alike.extend (h : scope.Alike π scope') (hπ : π'.Extends π size size') :
    scope.Alike π' scope' := List.Forall₂.imp (fun _ _ => hπ.keeps) h

omit [Scalar ρ] in
/-- Functions stay alike by a renaming with more pairs. -/
lemma Function.Alike.extend {f f' : Function ρ} (h : f.Alike π f') (hπ : π'.Extends π size size') :
    f.Alike π' f' := by
  cases h with
  | builtin b => exact .builtin b
  | user h => exact .user (h.extend hπ)

omit [Scalar ρ] in
/-- Registries stay alike by a renaming with more pairs. -/
lemma Registry.Alike.extend {r r' : Registry ρ} (h : Registry.Alike π r r')
    (hπ : π'.Extends π size size') : Registry.Alike π' r r' := by
  intro shape
  have hshape := h shape
  generalize r.find? shape = f, r'.find? shape = f' at hshape ⊢
  cases hshape with
  | none => exact .none
  | some hf => exact .some (hf.extend hπ)

omit [Scalar ρ] in
/-- Functions that are alike are registered under a shape in each registry. -/
lemma Registry.Alike.insert {r r' : Registry ρ} (h : Registry.Alike π r r') (shape : Shape)
    {f f' : Function ρ} (hf : f.Alike π f') :
    Registry.Alike π (r.insert shape f) (r'.insert shape f') := by
  intro shape'
  rw [Dictionary.find?_insert, Dictionary.find?_insert]
  split
  · exact .some hf
  · exact h shape'

end Alike

/-! ## Sessions -/

namespace Session

/-- Sessions that are the same up to a renaming of frames, as far as the pairs of the renaming go. -/
structure Alike (π : Renaming) (s t : Session ρ μ) : Prop where
  /-- The limits are the same. -/
  limits : t.limits = s.limits
  /-- As many dice are spent. -/
  spent : t.spent = s.spent
  /-- As many calls are under way. -/
  depth : t.depth = s.depth
  /-- The same functions are registered, up to the renaming. -/
  functions : Registry.Alike π s.registry t.registry
  /-- The frames of each pair exist. -/
  made : ∀ {i j}, π i j → i < s.frames.size ∧ j < t.frames.size
  /-- A frame stands for one frame only. -/
  unique : ∀ {i j k l}, π i j → π k l → (i = k ↔ j = l)
  /-- Frames that stand for one another bind the same. -/
  bindings : ∀ {i j}, π i j → ∀ name, t.frames.find? j name = s.frames.find? i name

namespace Alike

variable {π : Renaming} {s t : Session ρ μ} {scope scope' : Scope}

/-- In scopes that are alike the same is found. -/
theorem lookup?_eq (h : s.Alike π t) (hscope : scope.Alike π scope') (name : String) :
    t.frames.lookup? scope' name = s.frames.lookup? scope name := by
  unfold Scope.Alike at hscope
  unfold Frames.lookup?
  generalize scope.chain = chain, scope'.chain = chain' at hscope
  induction hscope with
  | nil => rfl
  | cons hij _ ih => rw [Frames.findFirst?, Frames.findFirst?, h.bindings hij, ih]

/-- Whatever fuel one session has, the other has. -/
lemma fuel_eq (h : s.Alike π t) : t.fuel = s.fuel := by
  unfold Session.fuel
  rw [h.limits, h.depth]

/-- The scopes do not matter. -/
lemma inScope (h : s.Alike π t) (scope scope' : Scope) : (s.inScope scope).Alike π (t.inScope scope') :=
  ⟨h.limits, h.spent, h.depth, h.functions, h.made, h.unique, h.bindings⟩

/-- One call deeper. -/
lemma down (h : s.Alike π t) (scope scope' : Scope) : (s.down scope).Alike π (t.down scope') :=
  ⟨h.limits, h.spent, congrArg (· + 1) h.depth, h.functions, h.made, h.unique, h.bindings⟩

/-- Back from a call. -/
lemma up (h : s.Alike π t) (scope scope' : Scope) : (s.up scope).Alike π (t.up scope') :=
  ⟨h.limits, h.spent, congrArg (· - 1) h.depth, h.functions, h.made, h.unique, h.bindings⟩

/-- Dice are spent. -/
lemma spend (h : s.Alike π t) (count : Nat) :
    ({ s with spent := s.spent + count } : Session ρ μ).Alike π { t with spent := t.spent + count } :=
  ⟨h.limits, congrArg (· + count) h.spent, h.depth, h.functions, h.made, h.unique, h.bindings⟩

/-- No dice are spent, and no calls are under way. -/
lemma renewed (h : s.Alike π t) : s.renewed.Alike π t.renewed :=
  ⟨h.limits, rfl, rfl, h.functions, h.made, h.unique, h.bindings⟩

/-- A fresh frame is made in each session. -/
theorem enter (h : s.Alike π t) (scope scope' : Scope) :
    (s.enter scope).Alike (π.insert s.frames.size t.frames.size) (t.enter scope') where
  limits := h.limits
  spent := h.spent
  depth := h.depth
  functions := h.functions.extend (π.extends_insert _ _)
  made {i j} hij := by
    have hs : (s.enter scope).frames.size = s.frames.size + 1 := Frames.size_extend _ scope
    have ht : (t.enter scope').frames.size = t.frames.size + 1 := Frames.size_extend _ scope'
    rcases hij with hij | ⟨rfl, rfl⟩
    · have := h.made hij
      omega
    · omega
  unique {i j k l} hij hkl := by
    rcases hij with hij | ⟨rfl, rfl⟩ <;> rcases hkl with hkl | ⟨rfl, rfl⟩
    · exact h.unique hij hkl
    · have := h.made hij
      omega
    · have := h.made hkl
      omega
    · simp
  bindings {i j} hij name := by
    show (t.frames.extend scope').2.find? j name = (s.frames.extend scope).2.find? i name
    rw [Frames.find?_extend, Frames.find?_extend]
    rcases hij with hij | ⟨rfl, rfl⟩
    · exact h.bindings hij name
    · rw [Frames.find?_of_size_le (Nat.le_refl _), Frames.find?_of_size_le (Nat.le_refl _)]

/-- The scopes with the fresh frames are alike if those around them are. -/
lemma enter_scope (hscope : scope.Alike π scope') :
    (s.enter scope).scope.Alike (π.insert s.frames.size t.frames.size) (t.enter scope').scope :=
  .cons (.inr ⟨rfl, rfl⟩) (hscope.extend (π.extends_insert _ _))

/-- A name is bound in each session, in frames that stand for one another. -/
theorem assign (h : s.Alike π t) (hframe : π s.scope.frame t.scope.frame) (name : String)
    (b : Binding ρ μ) : (s.assign name b).Alike π (t.assign name b) where
  limits := h.limits
  spent := h.spent
  depth := h.depth
  functions := h.functions
  made {i j} hij := by
    have hs : (s.assign name b).frames.size = s.frames.size := Frames.size_assign ..
    have ht : (t.assign name b).frames.size = t.frames.size := Frames.size_assign ..
    rw [hs, ht]
    exact h.made hij
  unique := h.unique
  bindings {i j} hij n := by
    refine (Frames.find?_assign ..).trans (Eq.trans ?_ (Frames.find?_assign ..).symm)
    have hmade := h.made hij
    simp only [h.unique hij hframe, hmade.1, hmade.2, h.bindings hij]

/-- Names are bound in each session, one after the other. -/
lemma assignAll (h : s.Alike π t) (hframe : π s.scope.frame t.scope.frame)
    (bs : List (String × Binding ρ μ)) : (s.assignAll bs).Alike π (t.assignAll bs) := by
  induction bs generalizing s t with
  | nil => exact h
  | cons b bs ih => exact ih (h.assign hframe b.1 b.2) hframe

/-- A function is declared in each session, in scopes that are alike. -/
theorem declare (h : s.Alike π t) (hscope : s.scope.Alike π t.scope) (signature : Signature)
    (body : List (Expr ρ)) :
    ({ s with registry := s.registry.insert signature.shape (.user ⟨signature, body, s.scope⟩) } :
      Session ρ μ).Alike π
      { t with registry := t.registry.insert signature.shape (.user ⟨signature, body, t.scope⟩) } where
  limits := h.limits
  spent := h.spent
  depth := h.depth
  functions := h.functions.insert _ (.user hscope)
  made := h.made
  unique := h.unique
  bindings := h.bindings

end Alike

end Session

end DiceCalculus
