import DiceCalculus.Proofs.Plan.Questions

set_option autoImplicit false
set_option relaxedAutoImplicit false

/-!
# Computations that ask for no dice

In exact mode no dice are asked for, whatever functions are called and however deep. What comes out,
and what is left of the session, depends neither on the dice that were spent before nor on how many
may be spent.

## Main definitions

* `Session.withDice` — a session in which another number of dice is spent, under another limit.
* `Run.IsQuiet` — a computation that asks for no dice and does not heed them.

## Main results

* `Plan.isQuiet_run` — the steps of every exact plan, by induction over them.
* `Question.isQuiet_of` — all exact answers of all expressions, with any amount of fuel.
* `Builtin.isQuiet_law` — the law that is taken on the way of a sample.
-/

namespace DiceCalculus

variable {ρ μ : Type} [Scalar ρ] {α β : Type}

/-! ## Sessions with other dice -/

namespace Session

/-- The session in which another number of dice is spent, under another limit. -/
def withDice (s : Session ρ μ) (spent : Nat) (limit : Option Nat) : Session ρ μ :=
  { s with spent := spent, limits := { s.limits with maxRolls := limit } }

/-- Names that are bound do not depend on the dice. -/
lemma assignAll_withDice (s : Session ρ μ) (spent : Nat) (limit : Option Nat)
    (bs : List (String × Binding ρ μ)) :
    (s.withDice spent limit).assignAll bs = (s.assignAll bs).withDice spent limit := by
  induction bs generalizing s with
  | nil => rfl
  | cons b bs ih => exact ih (s.assign b.1 b.2)

end Session

/-! ## Quiet computations -/

namespace Run

/-- A computation that asks for no dice and does not heed them: its result is the same, and it changes
the rest of the session in the same way, whatever was spent before and whatever may be spent. -/
def IsQuiet (act : Run ρ μ α) : Prop :=
  ∀ s : Session ρ μ, ∃ x t, ∀ spent limit,
    act.exec (s.withDice spent limit) = .done (x, Session.withDice t spent limit)

namespace IsQuiet

/-- A quiet computation is finished, and leaves as many dice spent as there were. -/
lemma exec_eq {act : Run ρ μ α} (h : act.IsQuiet) (s : Session ρ μ) :
    ∃ x t, act.exec s = .done (x, t) ∧ t.spent = s.spent ∧ ∀ spent limit,
      act.exec (s.withDice spent limit) = .done (x, t.withDice spent limit) := by
  obtain ⟨x, t, ht⟩ := h s
  exact ⟨x, t.withDice s.spent s.limits.maxRolls, ht s.spent s.limits.maxRolls, rfl, ht⟩

/-- A value that is given. -/
lemma pure (a : α) : (Pure.pure a : Run ρ μ α).IsQuiet := fun s => ⟨.ok a, s, fun _ _ => rfl⟩

/-- A failure. -/
lemma throw (e : Stop ρ μ) : (MonadExcept.throw e : Run ρ μ α).IsQuiet := fun s =>
  ⟨.error e, s, fun _ _ => rfl⟩

/-- Computations in turn. -/
lemma bind {act : Run ρ μ α} {f : α → Run ρ μ β} (h : act.IsQuiet) (hf : ∀ a, (f a).IsQuiet) :
    (act >>= f).IsQuiet := by
  intro s
  obtain ⟨e | a, t, ht⟩ := h s
  · refine ⟨.error e, t, fun spent limit => ?_⟩
    rw [exec_bind, ht]
    rfl
  · obtain ⟨y, u, hu⟩ := hf a t
    refine ⟨y, u, fun spent limit => ?_⟩
    rw [exec_bind, ht]
    exact hu spent limit

/-- A calculation, which heeds the limit of outcomes alone. -/
lemma calculate (c : Calculation ρ μ α) : (Run.calculate c).IsQuiet := fun s =>
  ⟨(c.under s.limits).mapError .fault, s, fun _ _ => exec_ofExcept (c.under s.limits) _⟩

/-- What is read of a session and is the same whatever the dice. -/
lemma read {f : Session ρ μ → α} (h : ∀ s spent limit, f (s.withDice spent limit) = f s) :
    (Run.read f).IsQuiet := by
  intro s
  refine ⟨.ok (f s), s, fun spent limit => ?_⟩
  rw [exec_read, h]

/-- A lookup. -/
lemma lookup (name : String) : (Run.lookup name : Run ρ μ (Binding ρ μ)).IsQuiet := by
  refine bind (read fun _ _ _ => rfl) fun found => ?_
  cases found with
  | none => exact throw _
  | some b => exact pure b

/-- A function that is looked up. -/
lemma function (shape : Shape) : (Run.function shape : Run ρ μ (Function ρ)).IsQuiet := by
  refine bind (read fun _ _ _ => rfl) fun found => ?_
  cases found with
  | none => exact throw _
  | some f => exact pure f

/-- A name that is bound. -/
lemma assign (name : String) (b : Binding ρ μ) : (Run.assign name b).IsQuiet := fun s =>
  ⟨.ok (), s.assign name b, fun _ _ => rfl⟩

/-- A declaration. -/
lemma declare (signature : Signature) (body : List (Expr ρ)) :
    (Run.declare signature body : Run ρ μ Unit).IsQuiet := by
  intro s
  cases hrepeated : signature.repeatedParameter? with
  | some name =>
    refine ⟨.error (.fault (.repeatedParameter name)), s, fun spent limit => ?_⟩
    rw [exec_declare, hrepeated]
  | none =>
    refine ⟨.ok (), { s with
      registry := s.registry.insert signature.shape (.user ⟨signature, body, s.scope⟩) },
      fun spent limit => ?_⟩
    rw [exec_declare, hrepeated]
    rfl

/-- A computation in a fresh frame. -/
lemma inFreshFrame {act : Run ρ μ α} (h : act.IsQuiet) : (Run.inFreshFrame act).IsQuiet := by
  intro s
  obtain ⟨x, t, ht⟩ := h (s.enter s.scope)
  refine ⟨x, t.inScope s.scope, fun spent limit => ?_⟩
  rw [exec_inFreshFrame]
  exact congrArg (· >>= _) (ht spent limit)

/-- An activation of a function. -/
lemma activation {act : Run ρ μ α} (h : act.IsQuiet) (scope : Scope)
    (bs : List (String × Binding ρ μ)) : (Run.activation scope bs act).IsQuiet := by
  intro s
  have hexec (spent : Nat) (limit : Option Nat) := exec_activation scope bs act (s.withDice spent limit)
  have henter (spent : Nat) (limit : Option Nat) :
      ((s.withDice spent limit).enter scope).assignAll bs =
        ((s.enter scope).assignAll bs).withDice spent limit :=
    (s.enter scope).assignAll_withDice spent limit bs
  have hreached (spent : Nat) (limit : Option Nat) :
      (s.withDice spent limit).limits.maxDepth.filter (· ≤ (s.withDice spent limit).depth) =
        s.limits.maxDepth.filter (· ≤ s.depth) := rfl
  simp only [henter, hreached] at hexec
  cases hdepth : s.limits.maxDepth.filter (· ≤ s.depth) with
  | some limit =>
    simp only [hdepth] at hexec
    exact ⟨.error (.fault (.tooDeep limit)), ((s.enter scope).assignAll bs).inScope s.scope, hexec⟩
  | none =>
    simp only [hdepth] at hexec
    obtain ⟨x, t, ht⟩ := h (((s.enter scope).assignAll bs).down (s.enter scope).scope)
    refine ⟨x, t.up s.scope, fun spent limit => (hexec spent limit).trans ?_⟩
    exact congrArg (· >>= _) (ht spent limit)

/-- A call of whatever function is registered. -/
lemma dispatch (shape : Shape) {builtin : Builtin → Run ρ μ α} {user : Closure ρ → Run ρ μ α}
    (hbuiltin : ∀ b, (builtin b).IsQuiet) (huser : ∀ c, (user c).IsQuiet) :
    (Run.dispatch shape builtin user).IsQuiet := by
  refine bind (function shape) ?_
  rintro (b | c)
  · exact hbuiltin b
  · exact huser c

end IsQuiet

end Run

/-! ## Exact plans -/

namespace Plan

variable {enter : Enter ρ μ}

/-- The steps of a plan in exact mode are quiet if the bodies of functions are.

**Proof sketch.** By induction over the plan. The steps that a sample alone can take, requests for dice
among them, do not occur in exact mode. -/
theorem isQuiet_run (henter : ∀ es, (enter es .exact).IsQuiet) {m : Mode} {p : Part}
    (x : Plan ρ μ m p α) (hm : m = .exact) : (x.run enter).IsQuiet := by
  induction x with
  | done a => exact .pure a
  | calculate c next ih => exact .bind (.calculate c) fun b => ih b hm
  | roll => cases hm
  | lookup name next ih => exact .bind (.lookup name) fun b => ih b hm
  | call shape builtin pairs next hbuiltin hpairs ih =>
    subst hm
    refine .bind (.dispatch shape (fun b => hbuiltin b rfl) fun c => ?_) fun a => ih a rfl
    exact .bind (hpairs c.signature rfl) fun bs => .activation (henter c.body) c.scope bs
  | frame inner next hinner ih => exact .bind (.inFreshFrame (hinner hm)) fun b => ih b hm
  | exact => cases hm
  | evaluate inner next hinner ih => exact .bind (hinner hm) fun b => ih b hm
  | assign name b next ih => exact .bind (.assign name b) fun _ => ih hm
  | declare signature body next ih => exact .bind (.declare signature body) fun _ => ih hm

variable [Mass μ]

/-- The bodies of functions are quiet in exact mode, with any amount of fuel. -/
lemma isQuiet_enterBody (fuel : Nat) (es : List (Expr ρ)) :
    (enterBody fuel es .exact : Run ρ μ _).IsQuiet := by
  induction fuel generalizing es with
  | zero => exact .throw .outOfFuel
  | succ fuel ih =>
    rw [← run_ofBody_enterBody]
    exact isQuiet_run ih (ofBody es .exact) rfl

end Plan

/-! ## Exact answers -/

section Answers

variable [Mass μ]

/-- All answers in exact mode are quiet, with any amount of fuel. -/
theorem Question.isQuiet_of {q : Question} (hq : q.mode = .exact) (fuel : Nat) (e : Expr ρ) :
    (q.of (e.meaning fuel) : Run ρ μ _).IsQuiet := by
  rw [← Plan.meaning_plans_enterBody, ← Question.run_plan]
  exact Plan.isQuiet_run (Plan.isQuiet_enterBody fuel) _ hq

/-- The law that is taken of an argument on the way of a sample is quiet. -/
theorem Builtin.isQuiet_law (fuel : Nat) (args : Slots (Expr ρ)) :
    (Builtin.law.value (args.map (·.meaning fuel)) : Run ρ μ _).IsQuiet := by
  show (Run.ofExcept ((args.map (·.meaning fuel)).nth 0) >>= fun x : Meaning ρ μ => do
    return Value.law (← x.law)).IsQuiet
  unfold Slots.nth Slots.map
  rw [List.getElem?_map]
  cases args.positional[0]? with
  | none => exact .throw _
  | some e =>
    have he : (e.meaning fuel : Meaning ρ μ).law.IsQuiet := Question.isQuiet_of (q := .law) rfl fuel e
    show ((e.meaning fuel).law >>= fun l => Pure.pure (Value.law l)).IsQuiet
    exact he.bind fun l => .pure (Value.law l)

end Answers

end DiceCalculus
