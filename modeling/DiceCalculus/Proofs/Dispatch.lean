import DiceCalculus.Proofs.FailedRequests
import DiceCalculus.Proofs.LexicalScope
import DiceCalculus.Proofs.Plan.Dispatched

set_option autoImplicit false
set_option relaxedAutoImplicit false

/-!
# Dispatch by shape

A call runs the function that was last declared with its shape, wherever in the session that was. Until
one is declared it runs the built-in function of the shape, and it fails if there is none.

## Main definitions

* `Dispatch.closures` — the functions that are declared, in their order.
* `Dispatch.registered` — the function under a shape in a session that has started, after declarations
  and calls.
* `Dispatch.Resolves` — every call is answered as the declarations before it say.
* `Trace.Accounts` — a run and what is recorded of it.

## Main results

* `Plan.accounts_trace`, `Interaction.accounts`, `Session.accounts_dispatches` — the record of every
  run accounts for it: for its calls, its failures and the registry that it leaves.
* `Question.play_call` — what comes of a call, from the function that is registered when it is reached.
* `calls_run_the_last_declaration` — all of these together.

## Design

What is said about calls is said about every way to split the record at a call. The declarations before
it are then those of earlier interactions, of blocks, of bodies that are not left yet, and of arguments
that were evaluated, in the order in which they were carried out. Those of the arguments of the call
itself are behind it.
-/

namespace DiceCalculus

/-! ## Records of declarations and calls -/

namespace Dispatch

variable {ρ : Type} {registry : Registry ρ} {log log' : List (Dispatch ρ)}

/-- The functions that are declared, in their order. -/
def closures (log : List (Dispatch ρ)) : List (Closure ρ) :=
  log.filterMap fun
    | .declared c => some c
    | .called _ _ => none

/-- The function under a shape in a session that has started, after declarations and calls: the one
that was declared last with the shape, or else the built-in one. -/
def registered (log : List (Dispatch ρ)) (shape : Shape) : Option (Function ρ) :=
  (((closures log).reverse.find? fun c => c.signature.shape = shape).map .user).or
    ((Builtin.all.find? fun b => b.shape = shape).map .builtin)

/-- Every call is answered as the declarations before it say, starting with a registry. -/
def Resolves (registry : Registry ρ) (log : List (Dispatch ρ)) : Prop :=
  ∀ before shape f? after, log = before ++ .called shape f? :: after →
    f? = (registry.declareAll (closures before)).find? shape

/-- What is declared in two records in turn. -/
lemma closures_append : closures (log ++ log') = closures log ++ closures log' :=
  List.filterMap_append

/-- Declaring the functions of two records in turn. -/
lemma declareAll_append : registry.declareAll (closures (log ++ log')) =
    (registry.declareAll (closures log)).declareAll (closures log') := by
  rw [closures_append]
  exact List.foldl_append

/-- A place in two records in turn is a place in the first or in the second. -/
lemma split_append {before after : List (Dispatch ρ)} {d : Dispatch ρ}
    (h : log ++ log' = before ++ d :: after) :
    (∃ inner, log = before ++ d :: inner ∧ after = inner ++ log') ∨
      ∃ inner, before = log ++ inner ∧ log' = inner ++ d :: after := by
  rcases List.append_eq_append_iff.1 h with ⟨inner, hbefore, hlog'⟩ | ⟨inner, hlog, hafter⟩
  · exact .inr ⟨inner, hbefore, hlog'⟩
  · cases inner with
    | nil => exact .inr ⟨[], hlog.symm ▸ by simp, hafter.symm⟩
    | cons d' inner =>
      obtain ⟨rfl, rfl⟩ := List.cons.inj hafter
      exact .inl ⟨inner, hlog, rfl⟩

/-- A place in a record is its beginning, or a place in the rest. -/
lemma split_cons {before after : List (Dispatch ρ)} {d d' : Dispatch ρ}
    (h : d' :: log = before ++ d :: after) :
    (before = [] ∧ d = d' ∧ after = log) ∨
      ∃ inner, before = d' :: inner ∧ log = inner ++ d :: after := by
  rcases List.cons_eq_append_iff.1 h with ⟨hbefore, h⟩ | ⟨inner, hbefore, hlog⟩
  · exact .inl ⟨hbefore, (List.cons.inj h).1, (List.cons.inj h).2⟩
  · exact .inr ⟨inner, hbefore, hlog⟩

namespace Resolves

/-- Records in turn, the second starting with the registry that the first leaves. -/
lemma append (h : Resolves registry log)
    (h' : Resolves (registry.declareAll (closures log)) log') : Resolves registry (log ++ log') := by
  intro before shape f? after hsplit
  rcases split_append hsplit with ⟨inner, hlog, -⟩ | ⟨inner, rfl, hlog'⟩
  · exact h before shape f? inner hlog
  · rw [declareAll_append]
    exact h' inner shape f? after hlog'

/-- Nothing is recorded. -/
lemma nil : Resolves registry [] := fun _ _ _ _ h => by simp at h

/-- A declaration comes first. -/
lemma declared {c : Closure ρ} (h : Resolves (registry.insert c.signature.shape (.user c)) log) :
    Resolves registry (.declared c :: log) := by
  intro before shape f? after hsplit
  rcases split_cons hsplit with ⟨-, hd, -⟩ | ⟨inner, rfl, hlog⟩
  · cases hd
  · exact h inner shape f? after hlog

/-- A call comes first. -/
lemma called {shape : Shape} {f? : Option (Function ρ)} (hf : registry.find? shape = f?)
    (h : Resolves registry log) : Resolves registry (.called shape f? :: log) := by
  intro before shape' g? after hsplit
  rcases split_cons hsplit with ⟨rfl, hd, -⟩ | ⟨inner, rfl, hlog⟩
  · obtain ⟨rfl, rfl⟩ := Dispatch.called.inj hd
    exact hf.symm
  · exact h inner shape' g? after hlog

end Resolves

end Dispatch

variable {ρ μ : Type} [Scalar ρ] {σ α β : Type}

/-! ## Runs and their records -/

/-- A run that starts with a registry, and what is recorded of it. -/
structure Trace.Accounts (registry : Registry ρ) (t : Trace ρ μ σ α) (log : List (Dispatch ρ)) :
    Prop where
  /-- The registry that is left has the declared functions besides. -/
  left : t.session.registry = registry.declareAll (Dispatch.closures log)
  /-- Every call is answered as the declarations before it say. -/
  resolves : Dispatch.Resolves registry log
  /-- A call without a function is the last thing that happens, and the run fails for it. -/
  unknown : ∀ before shape after, log = before ++ .called shape none :: after →
    after = [] ∧ t.result = .error (.fault (.unknownShape shape))
  /-- The parameters of a function that is declared have different names. -/
  parameters : ∀ c, .declared c ∈ log → c.signature.parameters.items.Nodup

namespace Trace.Accounts

variable {registry : Registry ρ} {t : Trace ρ μ σ α} {log : List (Dispatch ρ)}

/-- A run that keeps the registry and in which nothing is recorded. -/
lemma nil (h : t.session.registry = registry) : t.Accounts registry [] where
  left := h
  resolves := .nil
  unknown _ _ _ h := by simp at h
  parameters _ h := absurd h List.not_mem_nil

/-- A run that goes on, keeps the registry and does not undo a failure. -/
lemma leaving (h : t.Accounts registry log) {t' : Trace ρ μ σ β}
    (hregistry : t'.session.registry = t.session.registry)
    (herror : ∀ e, t.result = .error e → t'.result = .error e) : t'.Accounts registry log where
  left := hregistry.trans h.left
  resolves := h.resolves
  unknown before shape after hlog := by
    obtain ⟨hafter, hresult⟩ := h.unknown before shape after hlog
    exact ⟨hafter, herror _ hresult⟩
  parameters := h.parameters

/-- Runs in turn. -/
lemma andThen (h : t.Accounts registry log) {f : α → Session ρ μ → σ → Trace ρ μ σ β}
    {g : α → Session ρ μ → σ → List (Dispatch ρ)}
    (hf : ∀ a s r, (f a s r).Accounts s.registry (g a s r)) :
    (t.andThen f).Accounts registry (log ++ t.onward g) := by
  obtain ⟨events, e | a, s, r⟩ := t
  · refine (List.append_nil log).symm ▸ h.leaving rfl fun e' he' => ?_
    exact congrArg Except.error (Except.error.inj he')
  · have hs : s.registry = registry.declareAll (Dispatch.closures log) := h.left
    have hnext := hf a s r
    rw [hs] at hnext
    constructor
    · exact hnext.left.trans Dispatch.declareAll_append.symm
    · exact h.resolves.append hnext.resolves
    · intro before shape after hsplit
      rcases Dispatch.split_append hsplit with ⟨inner, hlog, -⟩ | ⟨inner, -, hlog⟩
      · -- the first run has a result, so no call in it is without a function
        cases (h.unknown before shape inner hlog).2
      · exact hnext.unknown inner shape after hlog
    · intro c hc
      exact (List.mem_append.1 hc).elim (h.parameters c) (hnext.parameters c)

/-- A run that keeps the registry and in which nothing is recorded, and then another. -/
lemma nil_andThen (h : t.session.registry = registry) {f : α → Session ρ μ → σ → Trace ρ μ σ β}
    {g : α → Session ρ μ → σ → List (Dispatch ρ)}
    (hf : ∀ a s r, (f a s r).Accounts s.registry (g a s r)) :
    (t.andThen f).Accounts registry (t.onward g) := (nil h).andThen hf

/-- A declaration, and what follows it. -/
lemma declared {c : Closure ρ} (hparameters : c.signature.parameters.items.Nodup)
    (h : t.Accounts (registry.insert c.signature.shape (.user c)) log) :
    t.Accounts registry (.declared c :: log) where
  left := h.left
  resolves := h.resolves.declared
  unknown before shape after hlog := by
    rcases Dispatch.split_cons hlog with ⟨-, hd, -⟩ | ⟨inner, -, hlog⟩
    · cases hd
    · exact h.unknown inner shape after hlog
  parameters c' hc' := by
    rcases List.mem_cons.1 hc' with hc' | hc'
    · exact Dispatch.declared.inj hc' ▸ hparameters
    · exact h.parameters c' hc'

/-- A call that runs a function, and what follows it. -/
lemma called {shape : Shape} {f : Function ρ} (hf : registry.find? shape = some f)
    (h : t.Accounts registry log) : t.Accounts registry (.called shape (some f) :: log) where
  left := h.left
  resolves := h.resolves.called hf
  unknown before shape' after hlog := by
    rcases Dispatch.split_cons hlog with ⟨-, hd, -⟩ | ⟨inner, -, hlog⟩
    · cases hd
    · exact h.unknown inner shape' after hlog
  parameters c hc := h.parameters c ((List.mem_cons.1 hc).resolve_left fun h => by cases h)

/-- A call without a function. -/
lemma refused {shape : Shape} (hf : registry.find? shape = none) (s : Session ρ μ)
    (hs : s.registry = registry) (r : σ) :
    (⟨[], .error (.fault (.unknownShape shape)), s, r⟩ : Trace ρ μ σ α).Accounts registry
      [.called shape none] where
  left := hs
  resolves := Dispatch.Resolves.nil.called hf
  unknown before shape' after hlog := by
    rcases Dispatch.split_cons hlog with ⟨-, hd, hafter⟩ | ⟨inner, -, hlog⟩
    · obtain ⟨rfl, -⟩ := Dispatch.called.inj hd
      exact ⟨hafter, rfl⟩
    · simp at hlog
  parameters c hc := by
    rcases List.mem_singleton.1 hc with ⟨⟩

/-- The activation of a function. -/
lemma activation {scope : Scope} {bs : List (String × Binding ρ μ)}
    {body : Session ρ μ → σ → Trace ρ μ σ α} {inBody : Session ρ μ → σ → List (Dispatch ρ)}
    (h : ∀ s r, (body s r).Accounts s.registry (inBody s r)) (s : Session ρ μ) (r : σ) :
    (Trace.activation scope bs body s r).Accounts s.registry
      (Trace.dispatchesIn inBody scope bs s r) := by
  have hbound : ((s.enter scope).assignAll bs).registry = s.registry := Session.assignAll_registry ..
  have hentered (t : Session ρ μ) :
      (Trace.entered body t r).Accounts t.registry (Trace.dispatchesEntered inBody t r) := by
    unfold Trace.entered Trace.dispatchesEntered
    cases t.limits.maxDepth.filter (· ≤ t.depth) with
    | some limit => exact .nil rfl
    | none => exact (h (t.down t.scope) r).leaving rfl fun _ => id
  have h := hentered ((s.enter scope).assignAll bs)
  rw [hbound] at h
  exact h.leaving rfl fun _ => id

end Trace.Accounts

namespace Plan

variable [Roller σ]

/-- What is recorded of the run of a plan accounts for it, if that is so for bodies.

**Proof sketch.** By induction over the plan. A call is recorded with the function that is registered
when it is reached, and the session from which it goes on is the one that its run leaves. -/
theorem accounts_trace
    {body : List (Expr ρ) → (m : Mode) → Session ρ μ → σ → Trace ρ μ σ (m.Answer ρ μ)}
    {inBody : List (Expr ρ) → Mode → Session ρ μ → σ → List (Dispatch ρ)}
    (hbody : ∀ es m s r, (body es m s r).Accounts s.registry (inBody es m s r)) {m : Mode} {p : Part}
    (x : Plan ρ μ m p α) (s : Session ρ μ) (r : σ) :
    (x.trace body s r).Accounts s.registry (x.dispatches body inBody s r) := by
  induction x generalizing s r with
  | done a => exact .nil rfl
  | calculate c next ih =>
    exact Trace.Accounts.nil_andThen (t := ⟨_, (c.under s.limits).mapError .fault, s, r⟩) rfl ih
  | roll count sides next ih =>
    refine .nil_andThen ?_ ih
    show ((Run.roll count sides).play s r).2.1.registry = s.registry
    rw [Run.play_roll]
    split <;> rfl
  | lookup name next ih =>
    refine .nil_andThen ?_ ih
    show ((Run.lookup name).play s r).2.1.registry = s.registry
    rw [Run.play_of_done r (Run.exec_lookup name s)]
  | @call m p α shape builtin pairs next hbuiltin hpairs ih =>
    rw [dispatches, onward_call_done]
    refine Trace.Accounts.andThen
      (?_ : Trace.Accounts _ _ (.called shape (s.registry.find? shape) :: _)) ih
    unfold Trace.dispatch
    rcases hfind : s.registry.find? shape with _ | b | c
    · exact .refused hfind s rfl r
    · exact (hbuiltin b s r).called hfind
    · refine Trace.Accounts.called hfind ((hpairs c.signature s r).andThen fun bs => ?_)
      exact .activation (hbody c.body m)
  | frame inner next hinner ih =>
    refine Trace.Accounts.andThen (t := Trace.inFrame s _) ?_ ih
    exact (hinner (s.enter s.scope) r).leaving rfl fun _ => id
  | exact inner next hinner ih => exact (hinner s r).andThen ih
  | evaluate inner next hinner ih => exact (hinner s r).andThen ih
  | assign name b next ih => exact (ih (s.assign name b) r).leaving rfl fun _ => id
  | declare signature statements next ih =>
    have hexec := Run.exec_declare (μ := μ) signature statements s
    rw [dispatches, trace]
    unfold Trace.ofRun
    split at hexec
    · rw [Run.play_of_done r hexec]
      exact .nil rfl
    · next hrepeated =>
      rw [Run.play_of_done r hexec]
      let s' : Session ρ μ := { s with
        registry := s.registry.insert signature.shape (.user ⟨signature, statements, s.scope⟩) }
      refine .declared (Signature.repeatedParameter?_eq_none_iff.1 hrepeated) ?_
      exact (ih s' r).leaving rfl fun _ => id

variable [Mass μ]

/-- What is recorded of the run of a body accounts for it, with any amount of fuel. -/
lemma accounts_traceBody (fuel : Nat) (es : List (Expr ρ)) (m : Mode) (s : Session ρ μ) (r : σ) :
    (traceBody fuel es m s r).Accounts s.registry (dispatchesBody fuel es m s r) := by
  induction fuel generalizing es m s r with
  | zero => exact .nil rfl
  | succ fuel ih => exact accounts_trace ih (ofBody es m) s r

/-- What is recorded of the run of a plan with the fuel of the session accounts for it. -/
lemma accounts_traced {m : Mode} {p : Part} (x : Plan ρ μ m p α) (s : Session ρ μ) (r : σ) :
    (x.traced s r).Accounts s.registry (x.dispatched s r) :=
  accounts_trace (accounts_traceBody s.fuel) x s r

end Plan

/-! ## Interactions -/

section Interactions

variable [Roller σ]

/-- A run that comes to what a computation comes to accounts for the computation. -/
lemma Trace.Accounts.ofRun {registry : Registry ρ} {t : Trace ρ μ σ α} {log : List (Dispatch ρ)}
    (h : t.Accounts registry log) {act : Run ρ μ α} {s : Session ρ μ} {r : σ}
    (houtcome : t.outcome = act.play s r) :
    (Trace.ofRun (fun _ => []) act s r).Accounts registry log :=
  h.leaving (congrArg (·.2.1.registry) houtcome).symm fun _ he =>
    (congrArg (·.1) houtcome).symm.trans he

variable [Mass μ]

omit [Roller σ] [Mass μ] in
/-- A run that has failed does not go on. -/
lemma Trace.result_andThen_of_error {t : Trace ρ μ σ α} {e : Stop ρ μ} (h : t.result = .error e)
    (f : α → Session ρ μ → σ → Trace ρ μ σ β) : (t.andThen f).result = .error e := by
  unfold Trace.andThen
  rw [h]

/-- What is recorded while a session finds an answer accounts for that. -/
lemma Request.accounts (q : Request ρ) (s : Session ρ μ) (r : σ) :
    (q.trace s r).Accounts s.registry (q.dispatches s r) := by
  cases q with
  | evaluate e => exact Plan.accounts_traced (e.plans : Plans ρ μ).value s.renewed r
  | distribution e =>
    refine (Plan.accounts_traced (e.plans : Plans ρ μ).law s.renewed r).leaving ?_ fun e he => ?_
    · exact congrArg (fun t : Session ρ μ => t.registry) (Trace.session_andThen_checked _)
    · exact Trace.result_andThen_of_error he Trace.checked
  | run e =>
    refine (Plan.accounts_traced ((e.plans : Plans ρ μ).step .sample)
      (s.renewed.inScope .global) r).leaving rfl fun e he => ?_
    exact congrArg (Except.map _) he

/-- What is recorded of an interaction accounts for it. -/
theorem Interaction.accounts (i : Interaction ρ μ) (s : Session ρ μ) (r : σ) :
    (Trace.ofRun (fun _ => []) i.perform s r).Accounts s.registry (i.dispatches s r) := by
  rcases i with (q | ⟨name, b⟩) | ⟨q, e⟩
  · exact (q.accounts s r).ofRun (q.outcome_trace s r)
  · exact .nil rfl
  · exact (Plan.accounts_traced (q.plan e.plans) s r).ofRun (q.outcome_traced e s r)

/-- What is recorded of interactions in turn accounts for the registry that they leave and for all
calls, whether or not the interactions fail. -/
theorem Session.accounts_dispatches (is : List (Interaction ρ μ)) (s : Session ρ μ) (r : σ) :
    (s.afterAll is r).1.registry = s.registry.declareAll (Dispatch.closures (s.dispatches is r)) ∧
      Dispatch.Resolves s.registry (s.dispatches is r) ∧
      ∀ c, .declared c ∈ s.dispatches is r → c.signature.parameters.items.Nodup := by
  induction is generalizing s r with
  | nil => exact ⟨rfl, .nil, fun _ h => absurd h List.not_mem_nil⟩
  | cons i is ih =>
    have hfirst := i.accounts s r
    have hregistry : (i.after s r).1.registry = s.registry.declareAll _ := hfirst.left
    obtain ⟨hleft, hresolves, hparameters⟩ := ih (i.after s r).1 (i.after s r).2
    rw [hregistry] at hleft hresolves
    refine ⟨hleft.trans Dispatch.declareAll_append.symm, hfirst.resolves.append hresolves, ?_⟩
    exact fun c hc => (List.mem_append.1 hc).elim (hfirst.parameters c) (hparameters c)

end Interactions

/-! ## The function that a call runs -/

/-- A call in a mode goes on with the function that is registered. -/
lemma Meaning.answer_call [Mass μ] (enter : Enter ρ μ) (shape : Shape) (args : Slots (Meaning ρ μ))
    (m : Mode) : (call enter shape args).answer m =
      (do (← Run.function shape).answer enter args m) := by
  cases m <;> rfl

namespace Question

/-- The answer of an expression that is its own only component, from its value or law. -/
def ofAnswer : (q : Question) → q.mode.Answer ρ μ → q.Answer ρ μ
  | value, v => v
  | items, v => [v]
  | law, l => l
  | laws, l => [l]
  | stored .sample, v => .value v
  | stored .exact, l => .law l
  | step _, a => .next (some a)

/-- An expression that is its own only component is asked for its value or its law. -/
lemma of_ofViews (q : Question) (value : Run ρ μ (Value ρ μ)) (law : Run ρ μ (Law ρ μ)) :
    q.of (.ofViews value law) =
      (do return q.ofAnswer (← (Meaning.ofViews value law).answer q.mode)) := by
  rcases q with _ | _ | _ | _ | (_ | _) | (_ | _)
  all_goals first | rfl | exact (bind_pure _).symm

variable [Mass μ] [Roller σ] (q : Question) (shape : Shape) (args : Slots (Expr ρ)) (s : Session ρ μ)
  (r : σ)

/-- What comes of a call, from the function that is registered when it is reached. Without one the
call fails before anything else. -/
theorem play_call : ((Expr.call shape args).ask q.of).play s r =
    match s.registry.find? shape with
    | none => (.error (.fault (.unknownShape shape)), s, r)
    | some (.builtin b) => Run.play (do
        return q.ofAnswer (← b.answer (args.map (·.meaning s.fuel)) q.mode)) s r
    | some (.user c) => Run.play (do
        let bs ← c.bindings args q.mode
        return q.ofAnswer (← Run.activation c.scope bs (Plan.enterBody s.fuel c.body q.mode))) s r := by
  let next (f : Function ρ) : Run ρ μ (q.Answer ρ μ) := do
    return q.ofAnswer (← f.answer (Plan.enterBody s.fuel) (args.map (·.meaning s.fuel)) q.mode)
  have hcall : q.of ((Expr.call shape args).meaning s.fuel) = Run.function shape >>= next := by
    rw [Plan.meaning_call]
    refine (q.of_ofViews _ _).trans ?_
    rw [← Meaning.call, Meaning.answer_call, bind_assoc]
  rw [play_ask, hcall, Run.play_bind, Run.play_of_done r (Run.exec_function shape s)]
  rcases s.registry.find? shape with _ | b | c
  · rfl
  · rfl
  · let pairs : Run ρ μ _ := Closure.bind c.signature (args.map (·.meaning s.fuel)) q.mode
    let body (bs : List (String × Binding ρ μ)) : Run ρ μ _ :=
      Run.activation c.scope bs (Plan.enterBody s.fuel c.body q.mode)
    have hpairs : (c.bindings args q.mode).play s r = pairs.play s r := rfl
    calc ((pairs >>= body) >>= fun a => pure (q.ofAnswer a)).play s r
        = (pairs >>= fun bs => body bs >>= fun a => pure (q.ofAnswer a)).play s r := by rw [bind_assoc]
      _ = (c.bindings args q.mode >>= fun bs => body bs >>= fun a => pure (q.ofAnswer a)).play s r := by
        rw [Run.play_bind, Run.play_bind _ (c.bindings args q.mode), hpairs]

end Question

/-! ## Declarations -/

/-- The first name that is taken already, among those that are seen and those before it. -/
lemma Signature.firstRepeated?_eq_some {seen names : List String} {name : String}
    (h : firstRepeated? seen names = some name) :
    ∃ before after, names = before ++ name :: after ∧ before.Nodup ∧ (∀ n ∈ before, n ∉ seen) ∧
      (name ∈ seen ∨ name ∈ before) := by
  induction names generalizing seen with
  | nil => cases h
  | cons n names ih =>
    rw [firstRepeated?] at h
    split at h
    · next hseen =>
      obtain rfl := Option.some_inj.1 h
      exact ⟨[], names, rfl, List.nodup_nil, by simp, .inl hseen⟩
    · next hseen =>
      obtain ⟨before, after, rfl, hnodup, hbefore, hname⟩ := ih h
      refine ⟨n :: before, after, rfl, List.nodup_cons.2 ⟨fun hn => ?_, hnodup⟩, ?_, ?_⟩
      · exact hbefore n hn List.mem_cons_self
      · rw [List.forall_mem_cons]
        exact ⟨hseen, fun n' hn' hseen' => hbefore n' hn' (List.mem_cons_of_mem n hseen')⟩
      · rw [List.mem_cons] at hname ⊢
        tauto

/-- Among the parameters, the first one that is found to be repeated has the name of an earlier one. -/
lemma Signature.repeatedParameter?_eq_some {signature : Signature} {name : String}
    (h : signature.repeatedParameter? = some name) :
    ∃ before after, signature.parameters.items = before ++ name :: after ∧ before.Nodup ∧
      name ∈ before := by
  obtain ⟨before, after, hitems, hnodup, -, hname⟩ := firstRepeated?_eq_some h
  exact ⟨before, after, hitems, hnodup, hname.resolve_left List.not_mem_nil⟩

/-- A declaration that is run registers the function, or fails and changes nothing. -/
lemma Question.play_step_declare [Mass μ] [Roller σ] (m : Mode) (signature : Signature)
    (body : List (Expr ρ)) (s : Session ρ μ) (r : σ) :
    ((Expr.declare signature body).ask (step m).of).play s r =
      match signature.repeatedParameter? with
      | some name => (.error (.fault (.repeatedParameter name)), s, r)
      | none => (.ok (.next none), { s with
          registry := s.registry.insert signature.shape (.user ⟨signature, body, s.scope⟩) }, r) := by
  have hmeaning : (step m).of ((Expr.declare signature body).meaning s.fuel) =
      (Run.declare signature body >>= fun _ => pure (.next none) : Run ρ μ (Flow (m.Answer ρ μ))) := by
    cases s.fuel <;> rfl
  have hexec := Run.exec_declare (μ := μ) signature body s
  rw [play_ask, hmeaning, Run.play_bind]
  rcases hrepeated : signature.repeatedParameter? with _ | name
  · rw [hrepeated] at hexec
    rw [Run.play_of_done r hexec]
    rfl
  · rw [hrepeated] at hexec
    rw [Run.play_of_done r hexec]

omit [Scalar ρ] in
/-- In the standard registry there is the built-in function of a shape. -/
lemma Registry.find?_standard (shape : Shape) : (standard : Registry ρ).find? shape =
    (Builtin.all.find? fun b => b.shape = shape).map .builtin := by
  have hbranch : Builtin.branch.shape ≠ Builtin.max.shape := by decide
  have hlaw : Builtin.law.shape ≠ Builtin.max.shape := by decide
  have hlaw' : Builtin.law.shape ≠ Builtin.branch.shape := by decide
  unfold standard Builtin.all
  simp only [List.foldl_cons, List.foldl_nil, Dictionary.find?_insert, List.find?_cons]
  by_cases hmax : Builtin.max.shape = shape
  · subst hmax
    simp [hbranch, hlaw]
  · by_cases hshape : Builtin.branch.shape = shape
    · subst hshape
      simp [hmax, hlaw']
    · simp [hmax, hshape, Dictionary.empty, Dictionary.find?, Dictionary.findIn?]
      split <;> simp [*]

/-- The first thing that is recorded of a call is the call. -/
lemma Plan.head?_dispatches_call [Roller σ] {m : Mode} {p : Part}
    (body : List (Expr ρ) → (m : Mode) → Session ρ μ → σ → Trace ρ μ σ (m.Answer ρ μ))
    (inBody : List (Expr ρ) → Mode → Session ρ μ → σ → List (Dispatch ρ)) (shape : Shape)
    (builtin : Builtin → Plan ρ μ m .expression (m.Answer ρ μ))
    (pairs : Signature → Plan ρ μ m .expression (List (String × Binding ρ μ)))
    (next : m.Answer ρ μ → Plan ρ μ m p α) (s : Session ρ μ) (r : σ) :
    ((call shape builtin pairs next).dispatches body inBody s r).head? =
      some (.called shape (s.registry.find? shape)) := by
  rw [dispatches]
  rfl

/-- A call that is asked directly is recorded first, with the function that is registered when it is
reached. -/
lemma Interaction.head?_dispatches_call [Mass μ] [Roller σ] (q : Question) (shape : Shape)
    (args : Slots (Expr ρ)) (s : Session ρ μ) (r : σ) :
    ((ask q (.call shape args)).dispatches s r).head? =
      some (.called shape (s.registry.find? shape)) := by
  obtain ⟨es, gs⟩ := args
  rw [dispatches, Expr.plans]
  have hcall {m : Mode} {p : Part} {α : Type} (builtin : Builtin → Plan ρ μ m .expression _) (pairs)
      (next : m.Answer ρ μ → Plan ρ μ m p α) :=
    Plan.head?_dispatches_call (Plan.traceBody s.fuel) (Plan.dispatchesBody s.fuel) shape builtin pairs
      next s r
  rcases q with _ | _ | _ | _ | (_ | _) | (_ | _)
  iterate 6 exact hcall _ _ _
  all_goals exact (List.head?_append ..).trans (congrArg (Option.or · _) (hcall _ _ _))

/-! ## All sessions -/

omit [Scalar ρ] in
/-- In a session that has started, a shape has the function that was declared last with it, or else the
built-in one. -/
lemma Dispatch.find?_declareAll_standard (log : List (Dispatch ρ)) (shape : Shape) :
    ((Registry.standard.declareAll (closures log)).find? shape) = registered log shape := by
  rw [Registry.find?_declareAll, Registry.find?_standard]
  rfl

/-- Calls are dispatched by shape, and the declaration that was carried out last wins.

In every session, after whatever has been done with it, a call that is reached runs the function that
was declared last with exactly its shape, or else the built-in one. The declarations before the call
count, from wherever in the session, and none that follow: what is declared by its arguments or by the
body that it runs is for later calls. If there is no function, the call is the last thing that happens
and the interaction fails for it.

This is so of the record of declarations and calls. As to a single call, in any session: it is recorded
when it is reached, and what comes of it depends on the registry at that time. A built-in function
answers, or the arguments are evaluated and then the body of the declared function is run, whatever is
registered by then. Without a function the call fails, and neither session nor roller are changed.

A declaration registers a function under its own shape and changes nothing else. If two parameters have
one name, in whichever groups, it fails with the first name that is taken already, and changes
nothing.

**Proof sketch.** A session records what it declares and calls, and its registry is at any time what
the record comes to when it is carried out from the standard one (`Session.accounts_dispatches`). A
single call and a single declaration are opened once (`Question.play_call`,
`Question.play_step_declare`), and the cases are those of the lookup and of the search for a
parameter that is repeated. -/
theorem calls_run_the_last_declaration [Mass μ] [Roller σ] :
    (∀ (limits : Limits μ) (is : List (Interaction ρ μ)) (r : σ),
      let s : Session ρ μ := .start limits
      (∀ before shape f? after, s.dispatches is r = before ++ .called shape f? :: after →
        f? = Dispatch.registered before shape) ∧
      (∀ c, .declared c ∈ s.dispatches is r → c.signature.parameters.items.Nodup) ∧
      ∀ shape, (s.afterAll is r).1.registry.find? shape =
        Dispatch.registered (s.dispatches is r) shape) ∧
    ∀ (s : Session ρ μ) (r : σ),
      (∀ (i : Interaction ρ μ) before shape after,
        i.dispatches s r = before ++ .called shape none :: after →
          after = [] ∧ (i.perform.play s r).1 = .error (.fault (.unknownShape shape))) ∧
      (∀ (q : Question) (shape : Shape) (args : Slots (Expr ρ)),
        let call : Expr ρ := .call shape args
        ((Interaction.ask q call).dispatches s r).head? =
          some (.called shape (s.registry.find? shape)) ∧
        (s.registry.find? shape = none →
          (call.ask q.of).play s r = (.error (.fault (.unknownShape shape)), s, r)) ∧
        (∀ b, s.registry.find? shape = some (.builtin b) → (call.ask q.of).play s r = Run.play (do
          return q.ofAnswer (← b.answer (args.map (·.meaning s.fuel)) q.mode)) s r) ∧
        ∀ c, s.registry.find? shape = some (.user c) → (call.ask q.of).play s r = Run.play (do
          let bs ← c.bindings args q.mode
          return q.ofAnswer (← Run.activation c.scope bs (Plan.enterBody s.fuel c.body q.mode))) s r) ∧
      ∀ (m : Mode) (signature : Signature) (body : List (Expr ρ)),
        let p := ((Expr.declare signature body).ask (Question.step m).of).play s r
        (signature.parameters.items.Nodup → ∃ registry : Registry ρ,
          p = (.ok (.next none), { s with registry }, r) ∧
            ∀ shape, registry.find? shape = if signature.shape = shape
              then some (.user ⟨signature, body, s.scope⟩) else s.registry.find? shape) ∧
        (¬ signature.parameters.items.Nodup → ∃ before name after,
          signature.parameters.items = before ++ name :: after ∧ before.Nodup ∧ name ∈ before ∧
            p = (.error (.fault (.repeatedParameter name)), s, r)) := by
  refine ⟨fun limits is r => ?_, fun s r => ⟨fun i => (i.accounts s r).unknown,
    fun q shape args => ⟨Interaction.head?_dispatches_call q shape args s r, ?_⟩,
    fun m signature body => ?_⟩⟩
  · obtain ⟨hleft, hresolves, hparameters⟩ := Session.accounts_dispatches is (.start limits) r
    refine ⟨fun before shape f? after hlog => ?_, hparameters, fun shape => ?_⟩
    · rw [hresolves before shape f? after hlog]
      exact Dispatch.find?_declareAll_standard before shape
    · rw [hleft]
      exact Dispatch.find?_declareAll_standard _ shape
  · have hplay := q.play_call shape args s r
    refine ⟨fun h => ?_, fun b h => ?_, fun c h => ?_⟩ <;>
    · rw [h] at hplay
      exact hplay
  · have hplay := Question.play_step_declare m signature body s r
    refine ⟨fun h => ?_, fun h => ?_⟩
    · rw [Signature.repeatedParameter?_eq_none_iff.2 h] at hplay
      exact ⟨_, hplay, fun shape => Dictionary.find?_insert ..⟩
    · rw [← Signature.repeatedParameter?_eq_none_iff] at h
      obtain ⟨name, hname⟩ := Option.ne_none_iff_exists'.1 h
      obtain ⟨before, after, hitems, hnodup, hmem⟩ := Signature.repeatedParameter?_eq_some hname
      rw [hname] at hplay
      exact ⟨before, name, after, hitems, hnodup, hmem, hplay⟩

/-- A function is declared and then called, with an argument that declares another one with its shape.
The call runs the first function and the next call runs the second. A call of a function that is not
declared fails without rolling the dice of its argument.

**Proof sketch.** What the session records is computed. The record is split at the second call of
the function, and the theorem says that it runs what was registered last before it. -/
theorem calls_run_the_last_declaration_redeclared :
    let number (i : Int32) : Expr (WithBot ℚ) := .literal (.int i)
    let f : Signature := ⟨"f", .ofList ["n"]⟩
    let call (name : String) (e : Expr (WithBot ℚ)) : Expr (WithBot ℚ) := .ofCall name (.ofList [e])
    let is : List (Interaction (WithBot ℚ) ℚ) :=
      [.operation (.request (.run (.declare f [.output (number 10)]))),
        .operation (.request (.evaluate
          (call "f" (.block [.declare f [.output (number 20)], number 4])))),
        .ask .law (call "f" (number 4)),
        .ask .value (call "g" (.dice (number 1) (number 6)))]
    let answer (c : Closure (WithBot ℚ)) : Option (Number (WithBot ℚ)) :=
      match c.body with
      | [.output (.literal x)] => some x
      | _ => none
    let seen (d : Dispatch (WithBot ℚ)) : Bool × Option (Number (WithBot ℚ)) :=
      match d with
      | .declared c => (true, answer c)
      | .called _ (some (.user c)) => (false, answer c)
      | .called _ _ => (false, none)
    let s : Session (WithBot ℚ) ℚ := .start ⟨none, some 1, none, 0⟩
    let r : Stepper := ⟨3, 1⟩
    let log := s.dispatches is r
    log.map seen = [(true, some (.int 10)), (false, some (.int 10)), (true, some (.int 20)),
      (false, some (.int 20)), (false, none)] ∧
    (∃ before shape f? after, log = before ++ .called shape f? :: after ∧
      seen (.called shape f?) = (false, some (.int 20)) ∧ f? = Dispatch.registered before shape) ∧
    (((call "f" (number 4)).ask (·.value)).play (s.afterAll is r).1 (s.afterAll is r).2).1.toOption.bind
      (·.toNumber.toOption) = some (.int 20) ∧
    let g := call "g" (.dice (number 1) (number 6))
    (g.ask Question.value.of).play s r =
      (.error (.fault (.unknownShape (.ofKeywords "g" 1 []))), s, r) := by
  intro number f call is answer seen s r log
  obtain ⟨hhistory, hsession⟩ := calls_run_the_last_declaration (ρ := WithBot ℚ) (μ := ℚ) (σ := Stepper)
  obtain ⟨hcalls, -⟩ := hhistory ⟨none, some 1, none, 0⟩ is r
  obtain ⟨-, hcall, -⟩ := hsession s r
  have hlog : log.map seen = [(true, some (.int 10)), (false, some (.int 10)), (true, some (.int 20))] ++
      (false, some (.int 20)) :: [(false, none)] := by
    decide +kernel
  refine ⟨hlog, ?_, by decide +kernel, ?_⟩
  · obtain ⟨before, rest, hsplit, -, hrest⟩ := List.map_eq_append_iff.1 hlog
    obtain ⟨d, after, rfl, hd, -⟩ := List.map_eq_cons_iff.1 hrest
    cases d with
    | declared c => cases hd
    | called shape f? =>
      exact ⟨before, shape, f?, after, hsplit, hd, hcalls before shape f? after hsplit⟩
  · obtain ⟨-, hnone, -⟩ := hcall .value (.ofKeywords "g" 1 []) (.ofList [.dice (number 1) (number 6)])
    exact hnone ((Registry.find?_standard _).trans (by decide))

end DiceCalculus
