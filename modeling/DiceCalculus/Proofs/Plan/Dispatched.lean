import DiceCalculus.Proofs.Interactions

set_option autoImplicit false
set_option relaxedAutoImplicit false

/-!
# The calls and declarations of a run

Which function a call runs is settled when the call is reached, and a declaration has its effect when
it is carried out. Both are recorded here in the order in which they happen, over a run and over
everything that is done with a session.

## Main definitions

* `Dispatch` — a declaration that is carried out, or a call that is reached.
* `Plan.dispatches` — the declarations and calls in the run of a plan, given those in bodies.
* `Plan.dispatchesBody` — those in a body with an amount of fuel.
* `Interaction.dispatches`, `Session.dispatches` — those of an interaction, and of several in turn.

## Design

A call is recorded before anything that happens while its arguments are evaluated, together with the
function that is then registered under its shape. A declaration that is refused is not recorded.
-/

namespace DiceCalculus

variable {ρ μ : Type} [Scalar ρ] {σ α β : Type}

/-- A declaration that is carried out, or a call that is reached. -/
inductive Dispatch (ρ : Type) where
  /-- A function is declared. -/
  | declared (c : Closure ρ)
  /-- A call of a shape is reached. It runs a function, if one is registered under the shape. -/
  | called (shape : Shape) (f? : Option (Function ρ))

namespace Trace

/-- What is recorded after a run, if that has a result. -/
def onward (t : Trace ρ μ σ α) (f : α → Session ρ μ → σ → List (Dispatch ρ)) : List (Dispatch ρ) :=
  match t.result with
  | .ok a => f a t.session t.roller
  | .error _ => []

/-- What is recorded when the body of a function is entered, given what is recorded in the body. -/
def dispatchesEntered (inBody : Session ρ μ → σ → List (Dispatch ρ)) (s : Session ρ μ) (r : σ) :
    List (Dispatch ρ) :=
  match s.limits.maxDepth.filter (· ≤ s.depth) with
  | some _ => []
  | none => inBody (s.down s.scope) r

/-- What is recorded in the activation of a function, given what is recorded in its body. -/
def dispatchesIn (inBody : Session ρ μ → σ → List (Dispatch ρ)) (scope : Scope)
    (bs : List (String × Binding ρ μ)) (s : Session ρ μ) (r : σ) : List (Dispatch ρ) :=
  dispatchesEntered inBody ((s.enter scope).assignAll bs) r

end Trace

namespace Plan

variable [Roller σ]

/-- The declarations and calls in the run of a plan, in the order in which they happen, given the
traces of bodies and what is recorded in them. -/
def dispatches (body : List (Expr ρ) → (m : Mode) → Session ρ μ → σ → Trace ρ μ σ (m.Answer ρ μ))
    (inBody : List (Expr ρ) → Mode → Session ρ μ → σ → List (Dispatch ρ))
    {m : Mode} {p : Part} {α : Type} : Plan ρ μ m p α → Session ρ μ → σ → List (Dispatch ρ)
  | done _, _, _ => []
  | calculate c next, s, r =>
    (⟨[], (c.under s.limits).mapError .fault, s, r⟩ : Trace ..).onward fun b =>
      (next b).dispatches body inBody
  | roll count sides next, s, r =>
    (Trace.ofRun (fun _ => []) (Run.roll count sides) s r).onward fun faces =>
      (next faces).dispatches body inBody
  | lookup name next, s, r =>
    (Trace.ofRun (fun _ => []) (Run.lookup name) s r).onward fun b => (next b).dispatches body inBody
  | @call _ _ _ m _ _ shape builtin pairs next, s, r =>
    .called shape (s.registry.find? shape) ::
    ((match s.registry.find? shape with
      | some (.builtin b) => (builtin b).dispatches body inBody s r
      | some (.user c) => (pairs c.signature).dispatches body inBody s r ++
        ((pairs c.signature).trace body s r).onward fun bs =>
          Trace.dispatchesIn (inBody c.body m) c.scope bs
      | none => []) ++
    ((call shape builtin pairs done : Plan ρ μ m .expression _).trace body s r).onward fun a =>
      (next a).dispatches body inBody)
  | frame inner next, s, r =>
    inner.dispatches body inBody (s.enter s.scope) r ++
      (Trace.inFrame s (inner.trace body (s.enter s.scope) r)).onward fun b =>
        (next b).dispatches body inBody
  | exact inner next, s, r =>
    inner.dispatches body inBody s r ++ (inner.trace body s r).onward fun b =>
      (next b).dispatches body inBody
  | evaluate inner next, s, r =>
    inner.dispatches body inBody s r ++ (inner.trace body s r).onward fun b =>
      (next b).dispatches body inBody
  | assign name b next, s, r => next.dispatches body inBody (s.assign name b) r
  | declare signature statements next, s, r =>
    (Trace.ofRun (fun _ => []) (Run.declare signature statements) s r).onward fun _ t r =>
      .declared ⟨signature, statements, s.scope⟩ :: next.dispatches body inBody t r

variable [Mass μ]

/-- The declarations and calls in a body, with fuel for a number of nested calls. -/
def dispatchesBody : (fuel : Nat) → List (Expr ρ) → Mode → Session ρ μ → σ → List (Dispatch ρ)
  | 0, _, _, _, _ => []
  | fuel + 1, es, m, s, r => (ofBody es m).dispatches (traceBody fuel) (dispatchesBody fuel) s r

/-- The declarations and calls in the run of a plan with the fuel of the session. -/
def dispatched {m : Mode} {p : Part} (x : Plan ρ μ m p α) (s : Session ρ μ) (r : σ) :
    List (Dispatch ρ) := x.dispatches (traceBody s.fuel) (dispatchesBody s.fuel) s r

end Plan

variable [Roller σ] [Mass μ]

/-- The declarations and calls while a session finds an answer. -/
def Request.dispatches : Request ρ → Session ρ μ → σ → List (Dispatch ρ)
  | evaluate e, s, r => (e.plans : Plans ρ μ).value.dispatched s.renewed r
  | distribution e, s, r => (e.plans : Plans ρ μ).law.dispatched s.renewed r
  | run e, s, r => ((e.plans : Plans ρ μ).step .sample).dispatched (s.renewed.inScope .global) r

/-- The declarations and calls of an interaction. -/
def Interaction.dispatches : Interaction ρ μ → Session ρ μ → σ → List (Dispatch ρ)
  | operation (.request q), s, r => q.dispatches s r
  | operation (.bindGlobal _ _), _, _ => []
  | ask q e, s, r => (q.plan e.plans).dispatched s r

/-- The declarations and calls of interactions in turn. -/
def Session.dispatches : List (Interaction ρ μ) → Session ρ μ → σ → List (Dispatch ρ)
  | [], _, _ => []
  | i :: is, s, r =>
    i.dispatches s r ++ Session.dispatches is (i.after s r).1 (i.after s r).2

/-! ## Runs that go on with nothing -/

omit [Roller σ] [Mass μ] in
/-- What is recorded after a run is recorded after it if it goes on with nothing. -/
lemma Trace.onward_andThen_done (t : Trace ρ μ σ α) (f : α → Session ρ μ → σ → List (Dispatch ρ)) :
    (t.andThen fun a s r => ⟨[], .ok a, s, r⟩).onward f = t.onward f := by
  obtain ⟨log, _ | a, s, r⟩ := t <;> rfl

omit [Mass μ] in
/-- What is recorded after a call is recorded after what the call is dispatched to. -/
lemma Plan.onward_call_done {m : Mode}
    (body : List (Expr ρ) → (m : Mode) → Session ρ μ → σ → Trace ρ μ σ (m.Answer ρ μ))
    (shape : Shape) (builtin : Builtin → Plan ρ μ m .expression (m.Answer ρ μ))
    (pairs : Signature → Plan ρ μ m .expression (List (String × Binding ρ μ))) (s : Session ρ μ) (r : σ)
    (f : m.Answer ρ μ → Session ρ μ → σ → List (Dispatch ρ)) :
    ((call shape builtin pairs done : Plan ρ μ m .expression _).trace body s r).onward f =
      (Trace.dispatch shape (fun b => (builtin b).trace body) (fun c s r =>
        ((pairs c.signature).trace body s r).andThen fun bs =>
          Trace.activation c.scope bs (body c.body _)) s r).onward f :=
  Trace.onward_andThen_done _ f

end DiceCalculus
