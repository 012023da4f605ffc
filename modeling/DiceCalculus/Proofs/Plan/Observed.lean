import DiceCalculus.Proofs.Plan.Questions

set_option autoImplicit false
set_option relaxedAutoImplicit false

/-!
# What is observed in a run

The log of a trace says what a run asks for and what it does to frames. What it computes on the way is
observed apart: the calculations with laws, the bindings that are found, the answers of built-in
functions, and the functions that are declared.

## Main definitions

* `Observation` — something that is found out or declared in a run.
* `Plan.observed` — what is observed in the run of a plan, given what is observed in bodies.
* `Plan.observedBody`, `Request.observed` — what is observed in a body with an amount of fuel, and in
  the answer of a session.

## Design

Only what succeeds is observed: a calculation that is refused is not, nor is a declaration of two
parameters with one name.
-/

namespace DiceCalculus

variable {ρ μ : Type} [Scalar ρ] {σ α : Type}

/-- Something that is found out or declared in a run. -/
inductive Observation (ρ μ : Type) [Scalar ρ] : Type 1 where
  /-- A calculation comes to a result. -/
  | calculated {β : Type} (c : Calculation ρ μ β)
  /-- The binding of a name is found. -/
  | read (name : String) (b : Binding ρ μ)
  /-- A built-in function answers. -/
  | answered {m : Mode} (b : Builtin) (a : m.Answer ρ μ)
  /-- A function is declared. -/
  | declared (c : Closure ρ)

namespace Trace

/-- What is observed after a run, if that has a result. -/
def followed (t : Trace ρ μ σ α) (f : α → Session ρ μ → σ → List (Observation ρ μ)) :
    List (Observation ρ μ) :=
  match t.result with
  | .ok a => f a t.session t.roller
  | .error _ => []

/-- What is observed when the body of a function is entered, given what is observed in the body. -/
def observedEntered (inBody : Session ρ μ → σ → List (Observation ρ μ)) (s : Session ρ μ) (r : σ) :
    List (Observation ρ μ) :=
  match s.limits.maxDepth.filter (· ≤ s.depth) with
  | some _ => []
  | none => inBody (s.down s.scope) r

/-- What is observed in the activation of a function, given what is observed in its body. -/
def observedIn (inBody : Session ρ μ → σ → List (Observation ρ μ)) (scope : Scope)
    (bs : List (String × Binding ρ μ)) (s : Session ρ μ) (r : σ) : List (Observation ρ μ) :=
  observedEntered inBody ((s.enter scope).assignAll bs) r

end Trace

namespace Plan

variable [Roller σ]

/-- What is observed in the run of a plan, in the order in which it is observed, given the traces of
bodies and what is observed in them. -/
def observed (body : List (Expr ρ) → (m : Mode) → Session ρ μ → σ → Trace ρ μ σ (m.Answer ρ μ))
    (inBody : List (Expr ρ) → Mode → Session ρ μ → σ → List (Observation ρ μ))
    {m : Mode} {p : Part} {α : Type} : Plan ρ μ m p α → Session ρ μ → σ → List (Observation ρ μ)
  | done _, _, _ => []
  | calculate c next, s, r =>
    (⟨[], (c.under s.limits).mapError .fault, s, r⟩ : Trace ..).followed fun b s r =>
      .calculated c :: (next b).observed body inBody s r
  | roll count sides next, s, r =>
    (Trace.ofRun (fun _ => [.rolled count sides]) (Run.roll count sides) s r).followed fun faces =>
      (next faces).observed body inBody
  | lookup name next, s, r =>
    (Trace.ofRun (fun _ => []) (Run.lookup name) s r).followed fun b s r =>
      .read name b :: (next b).observed body inBody s r
  | @call _ _ _ m _ _ shape builtin pairs next, s, r =>
    (match s.registry.find? shape with
      | some (.builtin b) => (builtin b).observed body inBody s r ++
        ((builtin b).trace body s r).followed fun a _ _ => [.answered b a]
      | some (.user c) => (pairs c.signature).observed body inBody s r ++
        ((pairs c.signature).trace body s r).followed fun bs =>
          Trace.observedIn (inBody c.body m) c.scope bs
      | none => []) ++
    ((call shape builtin pairs done : Plan ρ μ m .expression _).trace body s r).followed fun a =>
      (next a).observed body inBody
  | frame inner next, s, r =>
    inner.observed body inBody (s.enter s.scope) r ++
      (Trace.inFrame s (inner.trace body (s.enter s.scope) r)).followed fun b =>
        (next b).observed body inBody
  | exact inner next, s, r =>
    inner.observed body inBody s r ++ (inner.trace body s r).followed fun b =>
      (next b).observed body inBody
  | evaluate inner next, s, r =>
    inner.observed body inBody s r ++ (inner.trace body s r).followed fun b =>
      (next b).observed body inBody
  | assign name b next, s, r => next.observed body inBody (s.assign name b) r
  | declare signature statements next, s, r =>
    (Trace.ofRun (fun _ => []) (Run.declare signature statements) s r).followed fun _ t r =>
      .declared ⟨signature, statements, s.scope⟩ :: next.observed body inBody t r

variable [Mass μ]

/-- What is observed in a body, with fuel for a number of nested calls. -/
def observedBody : (fuel : Nat) → List (Expr ρ) → Mode → Session ρ μ → σ → List (Observation ρ μ)
  | 0, _, _, _, _ => []
  | fuel + 1, es, m, s, r => (ofBody es m).observed (traceBody fuel) (observedBody fuel) s r

end Plan

/-- What is observed while a session finds an answer. -/
def Request.observed [Roller σ] [Mass μ] (q : Request ρ) (s : Session ρ μ) (r : σ) :
    List (Observation ρ μ) :=
  let body := Plan.traceBody (ρ := ρ) (μ := μ) (σ := σ) s.renewed.fuel
  let inBody := Plan.observedBody s.renewed.fuel
  match q with
  | evaluate e => (e.plans : Plans ρ μ).value.observed body inBody s.renewed r
  | distribution e => (e.plans : Plans ρ μ).law.observed body inBody s.renewed r
  | run e => ((e.plans : Plans ρ μ).step .sample).observed body inBody (s.renewed.inScope .global) r

/-! ## Runs that go on with nothing -/

/-- What is observed after a run is observed after it if it goes on with nothing. -/
lemma Trace.followed_andThen_done (t : Trace ρ μ σ α)
    (f : α → Session ρ μ → σ → List (Observation ρ μ)) :
    (t.andThen fun a s r => ⟨[], .ok a, s, r⟩).followed f = t.followed f := by
  obtain ⟨log, _ | a, s, r⟩ := t <;> rfl

/-- What is observed after a call is observed after what the call is dispatched to. -/
lemma Plan.followed_call_done [Roller σ] {m : Mode}
    (body : List (Expr ρ) → (m : Mode) → Session ρ μ → σ → Trace ρ μ σ (m.Answer ρ μ))
    (shape : Shape) (builtin : Builtin → Plan ρ μ m .expression (m.Answer ρ μ))
    (pairs : Signature → Plan ρ μ m .expression (List (String × Binding ρ μ))) (s : Session ρ μ) (r : σ)
    (f : m.Answer ρ μ → Session ρ μ → σ → List (Observation ρ μ)) :
    ((call shape builtin pairs done : Plan ρ μ m .expression _).trace body s r).followed f =
      (Trace.dispatch shape (fun b => (builtin b).trace body) (fun c s r =>
        ((pairs c.signature).trace body s r).andThen fun bs =>
          Trace.activation c.scope bs (body c.body _)) s r).followed f :=
  Trace.followed_andThen_done _ f

end DiceCalculus
