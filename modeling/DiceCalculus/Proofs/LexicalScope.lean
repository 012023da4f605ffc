import DiceCalculus.Proofs.Exact
import DiceCalculus.Proofs.LexicalScope.Reads
import DiceCalculus.Proofs.Renaming.Runs
import DiceCalculus.Roller

set_option autoImplicit false
set_option relaxedAutoImplicit false

/-!
# Lexical scope

A function sees the scope in which it was declared and what its arguments came to. The scope from which
it is called is of no account: from two sessions that differ in that scope only, a call has the same
result, asks for the same dice and declares the same functions.

## Main definitions

* `Closure.bindings`, `Closure.invoke` — the evaluation of the arguments of a call, and the call.
* `Closure.bindingsTrace`, `Closure.invocation`, `Closure.bodyReads` — their traces, and what the body
  looks up.
* `Session.AgreesFor` — sessions that agree on all that a function can come upon.

## Main results

* `Closure.play_call` — a call of the function that is registered under a shape.
* `Closure.alike_invocation` — calls go alike if the evaluations of the arguments do.
* `Closure.invoke_eq` — all arguments are evaluated before a parameter is bound.
* `Closure.chain_of_mem_bodyReads` — the scopes in which the body looks variables up.
* `calls_do_not_see_the_caller` — all of these together.

## Design

It is not enough that two sessions agree on the scope of the function that is called. Another function
that is registered may have been declared in the scope of the call, and the body may call that one. So
the sessions have to agree on the scopes of all registered functions.
-/

namespace DiceCalculus

variable {ρ μ : Type} [Scalar ρ] {σ α β γ : Type}

/-! ## Arguments and parameters -/

namespace Slots

/-- The items of two layouts are paired as they are with a function applied to those of the second. -/
lemma zip_map_right (f : β → γ) (s : Slots α) (t : Slots β) :
    s.zip (t.map f) = (s.zip t).map fun p => (p.1, f p.2) := by
  have hgroup (keyword : String) : (t.map f).group? keyword = (t.group? keyword).map (·.map f) :=
    lookup_map (List.map f) t.keywords keyword
  unfold zip
  rw [List.map_append, List.map_flatMap]
  refine congrArg₂ _ List.zip_map_right (congrArg (List.flatMap · s.keywords) (funext fun g => ?_))
  rw [hgroup]
  cases t.group? g.1 with
  | none => rfl
  | some ys => exact List.zip_map_right

/-- The plans of arguments. -/
def plans [Mass μ] (args : Slots (Expr ρ)) : PlannedSlots ρ μ :=
  ⟨args.positional.map Expr.plans, args.keywords.map fun g => (g.1, g.2.map Expr.plans)⟩

end Slots

/-- To pair names with what items come to, the items may be taken first. -/
lemma Run.mapM_pair (f : β → Run ρ μ γ) (ps : List (α × β)) :
    (ps.mapM fun p => do return (p.1, ← f p.2)) =
      (do return (ps.map (·.1)).zip (← (ps.map (·.2)).mapM f)) := by
  induction ps with
  | nil => rfl
  | cons p ps ih =>
    simp only [List.map_cons, List.mapM_cons, ih, bind_assoc, pure_bind, List.zip_cons_cons]

/-! ## Calls of a function -/

namespace Closure

variable [Mass μ] (c : Closure ρ) (args : Slots (Expr ρ)) (m : Mode)

/-- What the parameters of a function hold, from the arguments of a call. -/
def bindings : Run ρ μ (List (String × Binding ρ μ)) := do
  bind c.signature (args.map (·.meaning (← Run.read (·.fuel)))) m

/-- A call of a function with arguments. -/
def invoke : Run ρ μ (m.Answer ρ μ) := do
  let fuel ← Run.read (·.fuel)
  c.activate (Plan.enterBody fuel) (args.map (·.meaning fuel)) m

variable [Roller σ] (s : Session ρ μ) (r : σ)

/-- The trace of the evaluation of the arguments. -/
def bindingsTrace : Trace ρ μ σ (List (String × Binding ρ μ)) := (args.plans.bind m c.signature).traced s r

/-- The trace of a call. -/
def invocation : Trace ρ μ σ (m.Answer ρ μ) :=
  (c.bindingsTrace args m s r).andThen fun bs =>
    Trace.activation c.scope bs (Plan.traceBody s.fuel c.body m)

/-- What the body of the function looks up in a call, each time with the session as it then is. -/
def bodyReads : List (String × Session ρ μ) :=
  (c.bindingsTrace args m s r).afterwards fun bs t r =>
    let inside := (t.enter c.scope).assignAll bs
    match s.fuel, inside.limits.maxDepth.filter (· ≤ inside.depth) with
    | fuel + 1, none =>
      (Plan.ofBody c.body m).reads (Plan.traceBody fuel) (inside.down inside.scope) r
    | _, _ => []

/-- Taking the steps of the plan of the arguments evaluates them. -/
lemma run_bind (fuel : Nat) :
    (args.plans.bind m c.signature).run (Plan.enterBody fuel) =
      (bind c.signature (args.map (·.meaning fuel)) m : Run ρ μ _) := by
  have hargs : args.plans.meaning (Plan.enterBody fuel) =
      (args.map (·.meaning fuel) : Slots (Meaning ρ μ)) := by
    unfold Slots.plans PlannedSlots.meaning Slots.map
    simp only [List.map_map, Slots.mk.injEq]
    refine ⟨List.map_congr_left fun e _ => Plan.meaning_plans_enterBody fuel e,
      List.map_congr_left fun g _ => congrArg (Prod.mk g.1) ?_⟩
    rw [List.map_map]
    exact List.map_congr_left fun e _ => Plan.meaning_plans_enterBody fuel e
  rw [PlannedSlots.run_bind, hargs]

/-- Without its log, the trace of the evaluation of the arguments is what it comes to. -/
lemma outcome_bindingsTrace : (c.bindingsTrace args m s r).outcome = (c.bindings args m).play s r := by
  unfold bindingsTrace Plan.traced
  rw [Plan.outcome_trace (Plan.outcome_traceBody s.fuel), run_bind]
  rfl

/-- Without its log, the trace of a call is what the call comes to. -/
lemma outcome_invocation : (c.invocation args m s r).outcome = (c.invoke args m).play s r :=
  Trace.outcome_andThen_eq (c.outcome_bindingsTrace args m s r) fun bs =>
    Trace.outcome_activation c.scope bs (Plan.outcome_traceBody s.fuel c.body m)

/-- A call of the function that is registered under a shape. -/
theorem play_call {shape : Shape} (h : s.registry.find? shape = some (.user c)) :
    ((Expr.call shape args).ask (·.answer m)).play s r = (c.invoke args m).play s r := by
  have hexec : ((Meaning.call (Plan.enterBody s.fuel) shape (args.map (·.meaning s.fuel))).answer m).exec s =
      (c.activate (Plan.enterBody s.fuel) (args.map (·.meaning s.fuel)) m).exec s := by
    cases m <;>
    · refine (Run.exec_bind (Run.function shape) _ s).trans ?_
      rw [Run.exec_function, h]
      rfl
  rw [Run.play_eq, Run.exec_ask, Plan.meaning_call, hexec]
  rfl

/-- All arguments are evaluated before a parameter is bound. -/
theorem invoke_eq :
    (c.invoke args m).play s r =
      (do
        let ps : List (String × Expr ρ) := c.signature.parameters.zip args
        let bs ← (ps.map (·.2)).mapM fun e => (e.meaning s.fuel).stored m
        Run.activation c.scope ((ps.map (·.1)).zip bs) (Plan.enterBody s.fuel c.body m) :
        Run ρ μ (m.Answer ρ μ)).play s r := by
  have hbind : bind c.signature (args.map (·.meaning s.fuel)) m =
      (do
        let ps : List (String × Expr ρ) := c.signature.parameters.zip args
        return (ps.map (·.1)).zip (← (ps.map (·.2)).mapM fun e => (e.meaning s.fuel).stored m) :
        Run ρ μ _) := by
    unfold bind
    rw [Slots.zip_map_right, List.mapM_map]
    exact Run.mapM_pair (fun e : Expr ρ => (e.meaning s.fuel).stored m) (c.signature.parameters.zip args)
  show (bind c.signature (args.map (·.meaning s.fuel)) m >>= fun bs =>
    Run.activation c.scope bs (Plan.enterBody s.fuel c.body m)).play s r = _
  rw [hbind]
  simp only [bind_assoc, pure_bind]

/-- To evaluate arguments in turn makes a session evolve. -/
lemma evolves_arguments (fuel : Nat) (es : List (Expr ρ)) :
    s.Evolves ((es.mapM fun e => (e.meaning fuel).stored m : Run ρ μ _).play s r).2.1 := by
  induction es generalizing s r with
  | nil => exact .refl s
  | cons e es ih =>
    rw [List.mapM_cons]
    refine .bind (Question.evolves_play (.stored m) fuel e s r) fun b t r => ?_
    exact .bind (ih t r) fun bs t r => .refl t

/-! ## The scope of the call -/

variable {c args m s r} in
/-- Calls go alike, from any two scopes, if the evaluations of the arguments do. -/
theorem alike_invocation {π : Renaming} {t : Session ρ μ} (hfuel : t.fuel = s.fuel)
    (hscope : c.scope.Alike π c.scope)
    (h : (c.bindingsTrace args m s r).Alike π s t (c.bindingsTrace args m t r)) :
    (c.invocation args m s r).Alike π s t (c.invocation args m t r) := by
  unfold invocation
  rw [hfuel]
  refine h.andThen fun bs π' u u' r hπ' hu _ _ => .activation hu (hscope.extend hπ') bs ?_ r
  exact fun π u u' r hu hscope => Plan.alike_traceBody s.fuel c.body m π u u' r hu hscope

/-- The body of a function looks variables up in the scope of its declaration, inside which there are
frames only that were made in the call. -/
theorem chain_of_mem_bodyReads : ∀ read ∈ c.bodyReads args m s r,
    ∃ inner, read.2.scope.chain = inner ++ c.scope.chain ∧ ∀ i ∈ inner, s.frames.size ≤ i := by
  intro read hread
  have hargs : s.Evolves (c.bindingsTrace args m s r).session := Plan.evolves_traced _ s r
  unfold bodyReads Trace.afterwards at hread
  generalize c.bindingsTrace args m s r = t at hargs hread
  obtain ⟨log, _ | bs, t, r'⟩ := t
  · cases hread
  · simp only at hread
    split at hread
    · have hinside := Plan.isWithin_of_mem_reads (Plan.evolves_traceBody _) _ _ _ read hread
      obtain ⟨inner, hchain, hinner⟩ := hinside
      have hscope : ((t.enter c.scope).assignAll bs).scope.chain = t.frames.size :: c.scope.chain := by
        rw [Session.assignAll_scope]
        rfl
      have hsize : t.frames.size ≤ ((t.enter c.scope).assignAll bs).frames.size :=
        (Session.size_le_enter t c.scope).trans (Session.Evolves.assignAll _ bs).size_le
      refine ⟨inner ++ [t.frames.size], ?_, fun i hi => ?_⟩
      · rw [hchain, List.append_assoc]
        exact congrArg (inner ++ ·) hscope
      · rcases List.mem_append.1 hi with hi | hi
        · exact Nat.le_trans hargs.size_le (Nat.le_trans hsize (hinner i hi))
        · exact List.mem_singleton.1 hi ▸ hargs.size_le
    · cases hread

end Closure

namespace Session

/-- A frame that a function can come upon: one of the scope of its own declaration, or of the scope of
a registered function. -/
def ComesUpon (s : Session ρ μ) (c : Closure ρ) (i : Nat) : Prop :=
  i ∈ c.scope.chain ∨ ∃ shape f, s.registry.find? shape = some (.user f) ∧ i ∈ f.scope.chain

/-- Sessions that agree on all that a function can come upon. Their scopes are any. -/
structure AgreesFor (c : Closure ρ) (s t : Session ρ μ) : Prop where
  /-- The limits are the same. -/
  limits : t.limits = s.limits
  /-- As many dice are spent. -/
  spent : t.spent = s.spent
  /-- As many calls are under way. -/
  depth : t.depth = s.depth
  /-- The same functions are registered. -/
  registry : t.registry = s.registry
  /-- The frames that the function can come upon exist and bind the same. -/
  frames : ∀ i, s.ComesUpon c i →
    i < s.frames.size ∧ i < t.frames.size ∧ ∀ name, t.frames.find? i name = s.frames.find? i name

/-- The frames that a function can come upon, each standing for itself. -/
def shared (s : Session ρ μ) (c : Closure ρ) : Renaming := fun i j => i = j ∧ s.ComesUpon c i

variable {c : Closure ρ} {s t : Session ρ μ}

/-- A scope whose frames the function can come upon is the same in both sessions. -/
lemma alike_shared {scope : Scope} (h : ∀ i ∈ scope.chain, s.ComesUpon c i) :
    scope.Alike (s.shared c) scope :=
  List.forall₂_same.2 fun i hi => ⟨rfl, h i hi⟩

/-- Sessions that agree for a function are alike. -/
lemma AgreesFor.alike (h : s.AgreesFor c t) : s.Alike (s.shared c) t where
  limits := h.limits
  spent := h.spent
  depth := h.depth
  functions shape := by
    rw [h.registry]
    cases hf : s.registry.find? shape with
    | none => exact .none
    | some f =>
      cases f with
      | builtin b => exact .some (.builtin b)
      | user f => exact .some (.user (alike_shared fun i hi => .inr ⟨shape, f, hf, hi⟩))
  made := by
    rintro i j ⟨rfl, hi⟩
    exact ⟨(h.frames i hi).1, (h.frames i hi).2.1⟩
  unique := by
    rintro i j k l ⟨rfl, -⟩ ⟨rfl, -⟩
    rfl
  bindings := by
    rintro i j ⟨rfl, hi⟩
    exact (h.frames i hi).2.2

end Session

/-! ## Calls do not see the caller -/

/-- A call does not see the scope from which it is made. Take two sessions in any two scopes that agree
on limits, dice and depth, on the registered functions, and on the frames of the scopes of these and of
the function. If the arguments evaluate alike in the two scopes, the call goes alike: with the same
result, the same requests for dice, and the same functions registered after it, up to a renaming of
frames that were made in the meantime.

All arguments are evaluated in the scope of the call before a parameter is bound. And a variable that
the body looks up is bound by the innermost frame that binds its name, as the frames then are, either
in the scope of the declaration or among the frames that were made in the call. -/
theorem calls_do_not_see_the_caller [Roller σ] [Mass μ] (c : Closure ρ) (args : Slots (Expr ρ))
    (m : Mode) (s : Session ρ μ) (r : σ) :
    (∀ shape, s.registry.find? shape = some (.user c) →
      ((Expr.call shape args).ask (·.answer m)).play s r = (c.invoke args m).play s r) ∧
    (c.bindingsTrace args m s r).outcome = (c.bindings args m).play s r ∧
    (c.invocation args m s r).outcome = (c.invoke args m).play s r ∧
    (∀ t : Session ρ μ, s.AgreesFor c t →
      (c.bindingsTrace args m s r).Alike (s.shared c) s t (c.bindingsTrace args m t r) →
      (c.invocation args m s r).Alike (s.shared c) s t (c.invocation args m t r)) ∧
    (let ps : List (String × Expr ρ) := c.signature.parameters.zip args
      let evaluate (es : List (Expr ρ)) : Run ρ μ _ := es.mapM fun e => (e.meaning s.fuel).stored m
      (c.invoke args m).play s r = Run.play (do
        let bs ← evaluate (ps.map (·.2))
        Run.activation c.scope ((ps.map (·.1)).zip bs) (Plan.enterBody s.fuel c.body m)) s r ∧
      ∀ k, ((evaluate ((ps.map (·.2)).take k)).play s r).2.1.scope = s.scope) ∧
    ∀ name u, (name, u) ∈ c.bodyReads args m s r →
      (∃ inner, u.scope.chain = inner ++ c.scope.chain ∧ ∀ i ∈ inner, s.frames.size ≤ i) ∧
      ∀ b, u.frames.lookup? u.scope name = some b ↔ ∃ inner i outer,
        u.scope.chain = inner ++ i :: outer ∧ (∀ j ∈ inner, u.frames.find? j name = none) ∧
          u.frames.find? i name = some b := by
  refine ⟨fun shape h => c.play_call args m s r h, c.outcome_bindingsTrace args m s r,
    c.outcome_invocation args m s r, fun t ht hargs => ?_, ⟨c.invoke_eq args m s r, fun k => ?_⟩,
    fun name u hread => ⟨?_, fun b => ?_⟩⟩
  · exact Closure.alike_invocation ht.alike.fuel_eq (Session.alike_shared fun i hi => .inl hi) hargs
  · exact (Closure.evolves_arguments m s r s.fuel _).returns.scope
  · exact c.chain_of_mem_bodyReads args m s r _ hread
  · exact Frames.findFirst?_eq_some_iff

/-- A function reads a variable of its own scope and rolls a die. It is called from the scope of the
global variables and from a block with a variable of the same name, with the same arguments.

**Proof sketch.** The function can only come upon the global frame, since no other function is
declared, and there the two sessions agree. Its argument is a literal, which changes neither. So the
theorem applies, and the requests and the value are computed for the session with the block. -/
theorem calls_do_not_see_the_caller_block :
    let f : Signature := ⟨"f", .ofList ["n"]⟩
    let die : Expr (WithBot ℚ) := .dice (.var "n") (.literal (.int 6))
    let c : Closure (WithBot ℚ) := ⟨f, [.output (.binary .add (.var "x") die)], .global⟩
    let args : Slots (Expr (WithBot ℚ)) := .ofList [.literal (.int 2)]
    let start : Session (WithBot ℚ) ℚ := .start ⟨none, some 1, none, 0⟩
    let s := start.bindGlobal "x" (.value (.number (.int 10)))
    let t := (s.enter .global).assign "x" (.value (.number (.int 20)))
    let r : Stepper := ⟨3, 1⟩
    s.AgreesFor c t ∧
      (c.bindingsTrace args .sample s r).Alike (s.shared c) s t (c.bindingsTrace args .sample t r) ∧
      (c.invocation args .sample s r).Alike (s.shared c) s t (c.invocation args .sample t r) ∧
      (c.invocation args .sample t r).requests = [(2, 6)] ∧
      ((c.invoke args .sample).play t r).1.toOption.bind (·.toNumber.toOption) = some (.int 17) := by
  intro f die c args start s t r
  have hframe (i : Nat) (hi : s.ComesUpon c i) : i = 0 := by
    rcases hi with hi | ⟨shape, g, hg, -⟩
    · exact List.mem_singleton.1 hi
    · exact absurd hg (Registry.find?_standard_ne_user shape g)
  have hagrees : s.AgreesFor c t := by
    refine ⟨rfl, rfl, rfl, rfl, fun i hi => ?_⟩
    obtain rfl := hframe i hi
    exact ⟨Nat.one_pos, Nat.two_pos, fun name => rfl⟩
  have hargs : (c.bindingsTrace args .sample s r).Alike (s.shared c) s t
      (c.bindingsTrace args .sample t r) := .idle hagrees.alike [] _ r
  obtain ⟨-, -, -, halike, -⟩ := calls_do_not_see_the_caller c args .sample s r
  have hrequests : (c.invocation args .sample t r).requests = [(2, 6)] := by decide +kernel
  have hvalue : ((c.invoke args .sample).play t r).1.toOption.bind (·.toNumber.toOption) =
      some (.int 17) := by
    decide +kernel
  exact ⟨hagrees, hargs, halike t hagrees hargs, hrequests, hvalue⟩

/-- It is not enough that two sessions agree on the frames of the scope of the function that is called.
A function `f` calls another, `g`, which reads `x`. If `g` was declared in the scope of the call, what
`f` comes to depends on the `x` there, though the registry is the same. Nor is it enough that the
sessions agree on the frames of all registered functions, if the arguments declare `g` in the scope of
the call: they come to the same, and leave the same registry.

**Proof sketch.** All fields of the two sessions but the frame of the block are the same, and the
scopes of the functions that are named do not have this frame. The values that are returned are
computed. -/
theorem call_sees_the_caller_through_another_function :
    let toInt (x : Except (Stop (WithBot ℚ) ℚ) (Value (WithBot ℚ) ℚ)) :=
      x.toOption.bind (·.toNumber.toOption)
    let one : Binding (WithBot ℚ) ℚ := .value (.number (.int 1))
    let two : Binding (WithBot ℚ) ℚ := .value (.number (.int 2))
    let g : Signature := ⟨"g", .ofList []⟩
    let read : List (Expr (WithBot ℚ)) := [.output (.var "x")]
    let call : List (Expr (WithBot ℚ)) := [.output (.ofCall "g" (.ofList []))]
    let block : Session (WithBot ℚ) ℚ := (Session.start ⟨none, some 2, none, 0⟩).enter .global
    let c : Closure (WithBot ℚ) := ⟨⟨"f", .ofList []⟩, call, .global⟩
    let both : Session (WithBot ℚ) ℚ := { block with
      registry := (block.registry.insert c.signature.shape (.user c)).insert g.shape
        (.user ⟨g, read, block.scope⟩) }
    let s := both.assign "x" one
    let t := both.assign "x" two
    let none : Slots (Expr (WithBot ℚ)) := .ofList []
    let c' : Closure (WithBot ℚ) := ⟨⟨"f", .ofList ["n"]⟩, call, .global⟩
    let alone : Session (WithBot ℚ) ℚ := { block with
      registry := block.registry.insert c'.signature.shape (.user c') }
    let s' := alone.assign "x" one
    let t' := alone.assign "x" two
    let declaring : Slots (Expr (WithBot ℚ)) := .ofList [.block [.declare g read, .literal (.int 1)]]
    let r : Stepper := ⟨1, 1⟩
    (t.limits = s.limits ∧ t.registry = s.registry ∧ t.spent = s.spent ∧ t.depth = s.depth ∧
      t.scope = s.scope ∧ (∀ i ∈ c.scope.chain, t.frames.frame? i = s.frames.frame? i) ∧
      (c.bindings none .sample).play s r = (.ok [], s, r) ∧
      (c.bindings none .sample).play t r = (.ok [], t, r) ∧
      toInt ((c.invoke none .sample).play s r).1 = some (.int 1) ∧
      toInt ((c.invoke none .sample).play t r).1 = some (.int 2)) ∧
    t'.limits = s'.limits ∧ t'.registry = s'.registry ∧ t'.spent = s'.spent ∧ t'.depth = s'.depth ∧
      t'.scope = s'.scope ∧ (∀ i, s'.ComesUpon c' i → t'.frames.frame? i = s'.frames.frame? i) ∧
      (∃ u v, (c'.bindings declaring .sample).play s' r = (.ok [("n", one)], u, r) ∧
        (c'.bindings declaring .sample).play t' r = (.ok [("n", one)], v, r) ∧
        v.registry = u.registry ∧ v.spent = u.spent ∧ v.depth = u.depth) ∧
      toInt ((c'.invoke declaring .sample).play s' r).1 = some (.int 1) ∧
      toInt ((c'.invoke declaring .sample).play t' r).1 = some (.int 2) := by
  intro toInt one two g read call block c both s t none c' alone s' t' declaring r
  have hglobal : t'.frames.frame? 0 = s'.frames.frame? 0 := rfl
  have hreach (i : Nat) (hi : s'.ComesUpon c' i) : i = 0 := by
    rcases hi with hi | ⟨shape, f, hf, hi⟩
    · exact List.mem_singleton.1 hi
    · obtain rfl : f = c' := Registry.eq_of_find?_insert_standard hf
      exact List.mem_singleton.1 hi
  refine ⟨⟨rfl, rfl, rfl, rfl, rfl, fun i hi => ?_, rfl, rfl, by decide +kernel, by decide +kernel⟩,
    rfl, rfl, rfl, rfl, rfl, fun i hi => hreach i hi ▸ hglobal, ⟨_, _, rfl, rfl, rfl, rfl, rfl⟩,
    by decide +kernel, by decide +kernel⟩
  rw [List.mem_singleton.1 hi]
  rfl

end DiceCalculus
