import DiceCalculus.Proofs.Plan.Meaning
import DiceCalculus.Proofs.Run.Play

set_option autoImplicit false
set_option relaxedAutoImplicit false

/-!
# Traces

A run that is carried out with dice from a roller leaves a result, a session and the roller. Its
trace has a log besides: what happened on the way, in the order in which it happened.

## Main definitions

* `Event` — something that happens in a run.
* `Trace` — a log, with the result, the session and the roller that a run leaves.
* `Plan.trace` — the trace of a plan, given the traces of bodies.
* `Plan.traceBody`, `Plan.traced` — the traces of bodies with an amount of fuel, and of a plan with
  the fuel of the session.
* `Request`, `Request.perform`, `Request.trace` — what a session can be asked, and how it answers.

## Main results

* `Plan.outcome_trace`, `Plan.outcome_traced`, `Request.outcome_trace` — without its log, a trace is
  what the computation comes to.

## Design

The log is no part of a session: nothing that a program does depends on it, and a session that is
evaluated is not asked to keep one.
-/

namespace DiceCalculus

/-- Something that happens in a run. -/
inductive Event (ρ μ : Type) [Scalar ρ] where
  /-- A number of outcomes is asked for, and allowed. -/
  | measured (outcomes : Nat)
  /-- A number of dice with a number of sides is asked for, and rolled. -/
  | rolled (count sides : Nat)
  /-- A frame is made for a block or for an activation. -/
  | opened (frame : Nat)
  /-- A name of a frame is bound. -/
  | bound (frame : Nat) (name : String) (b : Binding ρ μ)
  /-- The block or activation for which a frame was made has ended. -/
  | closed (frame : Nat)
  /-- The body of a declared function is entered. -/
  | called
  /-- The body of a declared function is left. -/
  | returned

/-- What a run leaves, and what happened on the way. -/
structure Trace (ρ μ : Type) [Scalar ρ] (σ α : Type) where
  /-- What happened, in the order in which it happened. -/
  log : List (Event ρ μ)
  /-- The result. -/
  result : Except (Stop ρ μ) α
  /-- The session that is left. -/
  session : Session ρ μ
  /-- The roller that is left. -/
  roller : σ

variable {ρ μ : Type} [Scalar ρ] {σ α β : Type}

namespace Trace

/-- What a run comes to. -/
def outcome (t : Trace ρ μ σ α) : Except (Stop ρ μ) α × Session ρ μ × σ :=
  (t.result, t.session, t.roller)

/-- A run that goes on with another unless it has no result. -/
def andThen (t : Trace ρ μ σ α) (f : α → Session ρ μ → σ → Trace ρ μ σ β) : Trace ρ μ σ β :=
  match t.result with
  | .ok a =>
    let u := f a t.session t.roller
    { u with log := t.log ++ u.log }
  | .error e => ⟨t.log, .error e, t.session, t.roller⟩

/-- A run in a fresh frame of a session, back in the scope of the session. -/
def inFrame (s : Session ρ μ) (t : Trace ρ μ σ α) : Trace ρ μ σ α where
  log := .opened s.frames.size :: (t.log ++ [.closed s.frames.size])
  result := t.result
  session := t.session.inScope s.scope
  roller := t.roller

/-- A run of the body of a function, back in the scope and at the depth of the call. -/
def inCall (scope : Scope) (t : Trace ρ μ σ α) : Trace ρ μ σ α where
  log := .called :: (t.log ++ [.returned])
  result := t.result
  session := t.session.up scope
  roller := t.roller

/-- A run of a statement, back in a scope, with the value that the statement hands over. -/
def settle (scope : Scope) (t : Trace ρ μ σ (Flow α)) : Trace ρ μ σ (Option α) where
  log := t.log
  result := t.result.map fun
    | .next v => v
    | .ended v => some v
  session := t.session.inScope scope
  roller := t.roller

variable [Roller σ]

/-- The run of a computation, with the events of its result. -/
def ofRun (events : α → List (Event ρ μ)) (act : Run ρ μ α) (s : Session ρ μ) (r : σ) :
    Trace ρ μ σ α :=
  let p := act.play s r
  ⟨match p.1 with
    | .ok a => events a
    | .error _ => [], p.1, p.2.1, p.2.2⟩

/-- The run of the function that is registered under a shape, as it is built in or declared. -/
def dispatch (shape : Shape) (builtin : Builtin → Session ρ μ → σ → Trace ρ μ σ α)
    (user : Closure ρ → Session ρ μ → σ → Trace ρ μ σ α) (s : Session ρ μ) (r : σ) :
    Trace ρ μ σ α :=
  match s.registry.find? shape with
  | some (.builtin b) => builtin b s r
  | some (.user c) => user c s r
  | none => ⟨[], .error (.fault (.unknownShape shape)), s, r⟩

/-- The run of the body of a function, unless the limit of the depth is reached. -/
def entered (body : Session ρ μ → σ → Trace ρ μ σ α) (s : Session ρ μ) (r : σ) : Trace ρ μ σ α :=
  match s.limits.maxDepth.filter (· ≤ s.depth) with
  | some limit => ⟨[], .error (.fault (.tooDeep limit)), s, r⟩
  | none => inCall s.scope (body (s.down s.scope) r)

/-- The activation of a function: its body is run in a fresh frame, in which the parameters are
bound. -/
def activation (scope : Scope) (bs : List (String × Binding ρ μ))
    (body : Session ρ μ → σ → Trace ρ μ σ α) (s : Session ρ μ) (r : σ) : Trace ρ μ σ α :=
  let bound : Trace ρ μ σ Unit :=
    ⟨bs.map fun b => .bound s.frames.size b.1 b.2, .ok (), (s.enter scope).assignAll bs, r⟩
  inFrame s (bound.andThen fun _ => entered body)

end Trace

namespace Plan

variable [Roller σ]

/-- The trace of a plan, given the traces of bodies. -/
def trace (body : List (Expr ρ) → (m : Mode) → Session ρ μ → σ → Trace ρ μ σ (m.Answer ρ μ))
    {m : Mode} {p : Part} {α : Type} : Plan ρ μ m p α → Session ρ μ → σ → Trace ρ μ σ α
  | done a, s, r => ⟨[], .ok a, s, r⟩
  | calculate c next, s, r =>
    let allowed := c.sizes.takeWhile (Limits.allows s.limits.maxOutcomes)
    (⟨allowed.map .measured, (c.under s.limits).mapError .fault, s, r⟩ : Trace ..).andThen fun b =>
      (next b).trace body
  | roll count sides next, s, r =>
    (Trace.ofRun (fun _ => [.rolled count sides]) (Run.roll count sides) s r).andThen fun faces =>
      (next faces).trace body
  | lookup name next, s, r =>
    (Trace.ofRun (fun _ => []) (Run.lookup name) s r).andThen fun b => (next b).trace body
  | call shape builtin pairs next, s, r =>
    (Trace.dispatch shape (fun b => (builtin b).trace body) (fun c s r =>
      ((pairs c.signature).trace body s r).andThen fun bs =>
        Trace.activation c.scope bs (body c.body _)) s r).andThen fun a => (next a).trace body
  | frame inner next, s, r =>
    (Trace.inFrame s (inner.trace body (s.enter s.scope) r)).andThen fun b => (next b).trace body
  | exact inner next, s, r => (inner.trace body s r).andThen fun b => (next b).trace body
  | evaluate inner next, s, r => (inner.trace body s r).andThen fun b => (next b).trace body
  | assign name b next, s, r =>
    (Trace.ofRun (fun _ => [.bound s.scope.frame name b]) (Run.assign name b) s r).andThen fun _ =>
      next.trace body
  | declare signature statements next, s, r =>
    (Trace.ofRun (fun _ => []) (Run.declare signature statements) s r).andThen fun _ =>
      next.trace body

end Plan

/-! ## Without the log -/

namespace Trace

/-- A run that goes on with another comes to what the two come to in turn. -/
lemma outcome_andThen (t : Trace ρ μ σ α) (f : α → Session ρ μ → σ → Trace ρ μ σ β) :
    (t.andThen f).outcome =
      match t.outcome with
      | (.ok a, s, r) => (f a s r).outcome
      | (.error e, s, r) => (.error e, s, r) := by
  obtain ⟨log, _ | a, s, r⟩ := t <;> rfl

variable [Roller σ]

/-- Runs that come to what computations come to, do so in turn. -/
lemma outcome_andThen_eq {t : Trace ρ μ σ α} {f : α → Session ρ μ → σ → Trace ρ μ σ β}
    {act : Run ρ μ α} {next : α → Run ρ μ β} {s : Session ρ μ} {r : σ}
    (ht : t.outcome = act.play s r) (hf : ∀ a s r, (f a s r).outcome = (next a).play s r) :
    (t.andThen f).outcome = (act >>= next).play s r := by
  rw [outcome_andThen, Run.play_bind, ht]
  rcases act.play s r with ⟨_ | a, s', r'⟩
  · rfl
  · exact hf a s' r'

/-- A call of whatever function is registered comes to what it comes to as a computation. -/
lemma outcome_dispatch (shape : Shape) {builtin : Builtin → Session ρ μ → σ → Trace ρ μ σ α}
    {user : Closure ρ → Session ρ μ → σ → Trace ρ μ σ α} {act : Builtin → Run ρ μ α}
    {act' : Closure ρ → Run ρ μ α} (h : ∀ b s r, (builtin b s r).outcome = (act b).play s r)
    (h' : ∀ c s r, (user c s r).outcome = (act' c).play s r) (s : Session ρ μ) (r : σ) :
    (dispatch shape builtin user s r).outcome = (Run.dispatch shape act act').play s r := by
  unfold dispatch
  rw [Run.dispatch, Run.play_bind, Run.play_of_done r (Run.exec_function shape s)]
  rcases s.registry.find? shape with _ | b | c
  · rfl
  · exact h b s r
  · exact h' c s r

/-- An activation comes to what it comes to as a computation. -/
lemma outcome_activation (scope : Scope) (bs : List (String × Binding ρ μ))
    {body : Session ρ μ → σ → Trace ρ μ σ α} {act : Run ρ μ α}
    (h : ∀ s r, (body s r).outcome = act.play s r) (s : Session ρ μ) (r : σ) :
    (activation scope bs body s r).outcome = (Run.activation scope bs act).play s r := by
  have hexec := Run.exec_activation scope bs act s
  have hlimits : ((s.enter scope).assignAll bs).limits = s.limits := Session.assignAll_limits ..
  have hdepth : ((s.enter scope).assignAll bs).depth = s.depth := Session.assignAll_depth ..
  unfold activation andThen entered
  simp only [hlimits, hdepth, Session.assignAll_scope]
  cases hlimit : s.limits.maxDepth.filter (· ≤ s.depth) with
  | some limit =>
    rw [hlimit] at hexec
    exact (Run.play_of_done r hexec).symm
  | none =>
    rw [hlimit] at hexec
    rw [Run.activation, Run.play_of_bind_done (f := (·.up s.scope)) r hexec, ← h]
    rfl

end Trace

namespace Plan

variable [Roller σ] {enter : Enter ρ μ}
  {body : List (Expr ρ) → (m : Mode) → Session ρ μ → σ → Trace ρ μ σ (m.Answer ρ μ)}

/-- Without its log, the trace of a plan is what taking its steps comes to.

**Proof sketch.** By induction over the plan: the trace of a step comes to what the step comes to,
and the trace of what is left goes on from there. -/
theorem outcome_trace (hbody : ∀ es m s r, (body es m s r).outcome = (enter es m).play s r)
    {m : Mode} {p : Part} (x : Plan ρ μ m p α) (s : Session ρ μ) (r : σ) :
    (x.trace body s r).outcome = (x.run enter).play s r := by
  induction x generalizing s r with
  | done a => rfl
  | calculate c next ih =>
    refine Trace.outcome_andThen_eq ?_ ih
    exact (Run.play_of_done r (Run.exec_ofExcept (c.under s.limits) s)).symm
  | roll count sides next ih => exact Trace.outcome_andThen_eq rfl ih
  | lookup name next ih => exact Trace.outcome_andThen_eq rfl ih
  | call shape builtin pairs next hbuiltin hpairs ih =>
    refine Trace.outcome_andThen_eq (Trace.outcome_dispatch shape hbuiltin (fun c s r => ?_) s r) ih
    exact Trace.outcome_andThen_eq (hpairs c.signature s r) fun bs =>
      Trace.outcome_activation c.scope bs (hbody c.body _)
  | frame inner next hinner ih =>
    refine Trace.outcome_andThen_eq ?_ ih
    rw [Run.play_inFreshFrame, ← hinner]
    rfl
  | exact inner next hinner ih => exact Trace.outcome_andThen_eq (hinner s r) ih
  | evaluate inner next hinner ih => exact Trace.outcome_andThen_eq (hinner s r) ih
  | assign name b next ih => exact Trace.outcome_andThen_eq rfl fun _ => ih
  | declare signature statements next ih => exact Trace.outcome_andThen_eq rfl fun _ => ih

/-! ## Bodies -/

variable [Mass μ]

/-- The traces of bodies with fuel for a number of nested calls. -/
def traceBody : (fuel : Nat) → List (Expr ρ) → (m : Mode) → Session ρ μ → σ →
    Trace ρ μ σ (m.Answer ρ μ)
  | 0, _, _, s, r => ⟨[], .error .outOfFuel, s, r⟩
  | fuel + 1, es, m, s, r => (ofBody es m).trace (traceBody fuel) s r

/-- How the bodies of functions are run with fuel for a number of nested calls. -/
def enterBody : (fuel : Nat) → Enter ρ μ
  | 0 => fun _ _ => throw .outOfFuel
  | fuel + 1 => fun es m => Meaning.resultOf m (es.map (Expr.meaning fuel))

/-- The trace of a plan with the fuel of the session. -/
def traced {m : Mode} {p : Part} (x : Plan ρ μ m p α) (s : Session ρ μ) (r : σ) :
    Trace ρ μ σ α := x.trace (traceBody s.fuel) s r

/-- Taking the steps of the plans of an expression gives its meaning with any amount of fuel. -/
lemma meaning_plans_enterBody (fuel : Nat) (e : Expr ρ) :
    e.plans.meaning (enterBody fuel) = (e.meaning fuel : Meaning ρ μ) := by
  rw [Expr.meaning_plans]
  cases fuel <;> rfl

/-- The meaning of a call with any amount of fuel. -/
lemma meaning_call (fuel : Nat) (shape : Shape) (args : Slots (Expr ρ)) :
    (Expr.call shape args).meaning fuel =
      (.call (enterBody fuel) shape (args.map (·.meaning fuel)) : Meaning ρ μ) := by
  cases fuel <;> exact Expr.denote_call _ shape args

/-- Taking the steps of the plan of a body runs it, with fuel for one call more. -/
lemma run_ofBody_enterBody (fuel : Nat) (es : List (Expr ρ)) (m : Mode) :
    (ofBody es m).run (enterBody fuel) = (enterBody (fuel + 1) es m : Run ρ μ _) := by
  rw [run_ofBody]
  refine congrArg (Meaning.resultOf m) (List.map_congr_left fun e _ => ?_)
  rw [← Expr.meaning_plans, meaning_plans_enterBody]

/-- Without its log, the trace of a body is what the body comes to. -/
lemma outcome_traceBody (fuel : Nat) (es : List (Expr ρ)) (m : Mode) (s : Session ρ μ) (r : σ) :
    (traceBody fuel es m s r).outcome = (enterBody fuel es m).play s r := by
  induction fuel generalizing es m s r with
  | zero => rfl
  | succ fuel ih =>
    rw [← run_ofBody_enterBody]
    exact outcome_trace ih (ofBody es m) s r

/-- Without its log, the trace of a plan of an expression is the answer of the expression. -/
theorem outcome_traced {m : Mode} {p : Part} {e : Expr ρ} {x : Plan ρ μ m p α}
    {f : Meaning ρ μ → Run ρ μ α}
    (h : ∀ enter, x.run enter = f (e.plans.meaning enter)) (s : Session ρ μ) (r : σ) :
    (x.traced s r).outcome = (e.ask f).play s r := by
  rw [traced, outcome_trace (outcome_traceBody s.fuel), h, meaning_plans_enterBody, Run.play_eq,
    Run.play_eq, Run.exec_ask]

end Plan

/-! ## What a session is asked -/

/-- What a session can be asked. -/
inductive Request (ρ : Type) where
  /-- An expression is sampled. -/
  | evaluate (e : Expr ρ)
  /-- The law of an expression is computed. -/
  | distribution (e : Expr ρ)
  /-- A statement is run. -/
  | run (e : Expr ρ)

/-- The trace of comparing the total mass of a law with one. -/
def Trace.checked [Mass μ] (l : Law ρ μ) (s : Session ρ μ) (r : σ) : Trace ρ μ σ (Law ρ μ) :=
  ⟨[], Session.checked s.limits.tolerance l, s, r⟩

namespace Request

variable [Mass μ]

/-- What a session answers. -/
@[reducible] def Answer (μ : Type) : Request ρ → Type
  | evaluate _ => Value ρ μ
  | distribution _ => Law ρ μ
  | run _ => Option (Value ρ μ)

/-- How a session finds the answer. -/
def perform : (q : Request ρ) → Run ρ μ (q.Answer μ)
  | evaluate e => Session.evaluate e
  | distribution e => Session.distribution e
  | run e => Session.run e

variable [Roller σ]

/-- The trace of finding the answer, given the traces of bodies. -/
def traceWith (body : List (Expr ρ) → (m : Mode) → Session ρ μ → σ → Trace ρ μ σ (m.Answer ρ μ)) :
    (q : Request ρ) → Session ρ μ → σ → Trace ρ μ σ (q.Answer μ)
  | evaluate e, s, r => e.plans.value.trace body s.renewed r
  | distribution e, s, r => (e.plans.law.trace body s.renewed r).andThen Trace.checked
  | run e, s, r => ((e.plans.step .sample).trace body (s.renewed.inScope .global) r).settle s.scope

/-- The trace of finding the answer. -/
def trace (q : Request ρ) (s : Session ρ μ) (r : σ) : Trace ρ μ σ (q.Answer μ) :=
  q.traceWith (Plan.traceBody s.renewed.fuel) s r

/-- Without its log, the trace of a request is what the request comes to. -/
theorem outcome_trace (q : Request ρ) (s : Session ρ μ) (r : σ) :
    (q.trace s r).outcome = q.perform.play s r := by
  cases q with
  | evaluate e => exact Plan.outcome_traced (f := (·.value)) (fun _ => rfl) s.renewed r
  | distribution e =>
    have hlaw := Plan.outcome_traced (x := (e.plans : Plans ρ μ).law) (f := (·.law))
      (fun _ => rfl) s.renewed r
    show ((e.plans.law.traced s.renewed r).andThen Trace.checked).outcome = _
    refine Trace.outcome_andThen_eq hlaw fun l t r' => ?_
    rw [Run.play_bind, Run.play_of_done r' (Run.exec_read (·.limits.tolerance) t)]
    simp only [Trace.outcome, Trace.checked, Session.checked]
    split <;> rfl
  | run e =>
    have hstep := Plan.outcome_traced (x := (e.plans : Plans ρ μ).step .sample)
      (f := (·.step .sample)) (fun _ => rfl) (s.renewed.inScope .global) r
    refine Eq.trans ?_ (Run.play_bind r (Run.within .global e.step) _ s.renewed).symm
    rw [Run.play_within, Expr.step]
    show (((e.plans.step .sample).traced (s.renewed.inScope .global) r).settle s.scope).outcome = _
    generalize ((e.plans.step .sample).traced (s.renewed.inScope .global) r : Trace ..) = t at hstep ⊢
    rw [← hstep]
    obtain ⟨log, _ | flow, t, r'⟩ := t
    · rfl
    · cases flow <;> rfl

end Request

end DiceCalculus
