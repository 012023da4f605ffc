import DiceCalculus.Proofs.Consistency
import DiceCalculus.Proofs.Plan.Promise.Forms
import DiceCalculus.Proofs.Run.Scoping

set_option autoImplicit false
set_option relaxedAutoImplicit false

/-!
# What a failed request leaves behind

A request that fails has changed no variable that was there before. It has not undone anything either:
a function that was declared before the failure stays declared, and it is complete.

## Main definitions

* `declarations` — the functions that are declared in a run, in their order.
* `Registry.declareAll` — a registry with declared functions put into it.
* `Expr.Within` — an expression inside another one.

## Main results

* `Request.find?_registry` — the registry after a request has the declarations of its run besides.
* `Request.mem_declarations` — what is declared in a run stands in the request or in a function that
  was registered before.
* `Request.find?_frames_of_error` — a request that fails keeps all variables.
* `failed_request_leaves_declarations` — all this, in every session that can be reached.
-/

namespace DiceCalculus

variable {ρ μ : Type} [Scalar ρ] {σ α β : Type}

/-! ## Declarations and the registry -/

/-- The functions that are declared in a run. -/
def declarations (os : List (Observation ρ μ)) : List (Closure ρ) :=
  os.filterMap fun
    | .declared c => some c
    | _ => none

/-- A function is declared in a run if that is observed. -/
lemma mem_declarations {os : List (Observation ρ μ)} {c : Closure ρ} :
    c ∈ declarations os ↔ .declared c ∈ os := by
  unfold declarations
  rw [List.mem_filterMap]
  constructor
  · rintro ⟨o, ho, hc⟩
    split at hc
    · obtain rfl := Option.some_inj.1 hc
      exact ho
    · cases hc
  · exact fun h => ⟨_, h, rfl⟩

/-- A registry with declared functions put into it, one after the other. -/
def Registry.declareAll (registry : Registry ρ) (cs : List (Closure ρ)) : Registry ρ :=
  cs.foldl (fun registry c => registry.insert c.signature.shape (.user c)) registry

omit [Scalar ρ] in
/-- Under a shape there is then the last function that has it, and otherwise the one that was there
before. -/
lemma Registry.find?_declareAll (registry : Registry ρ) (cs : List (Closure ρ)) (shape : Shape) :
    (registry.declareAll cs).find? shape =
      ((cs.reverse.find? fun c => c.signature.shape = shape).map .user).or (registry.find? shape) := by
  induction cs generalizing registry with
  | nil => rfl
  | cons c cs ih =>
    show (Registry.declareAll (registry.insert c.signature.shape (.user c)) cs).find? shape = _
    rw [ih, List.reverse_cons, List.find?_append, Option.map_or, Option.or_assoc,
      Dictionary.find?_insert]
    by_cases hshape : c.signature.shape = shape <;> simp [hshape]

/-- The registry that a run leaves has what was observed to be declared besides. -/
def Trace.Declares (s : Session ρ μ) (t : Trace ρ μ σ α) (os : List (Observation ρ μ)) : Prop :=
  t.session.registry = s.registry.declareAll (declarations os)

namespace Trace.Declares

variable {s : Session ρ μ} {t : Trace ρ μ σ α} {os : List (Observation ρ μ)}

/-- A run that keeps the registry and in which nothing is declared. -/
lemma nil (h : t.session.registry = s.registry) : t.Declares s [] := h

/-- Runs in turn. -/
lemma andThen (h : t.Declares s os) {f : α → Session ρ μ → σ → Trace ρ μ σ β}
    {g : α → Session ρ μ → σ → List (Observation ρ μ)}
    (hf : ∀ a s r, (f a s r).Declares s (g a s r)) : (t.andThen f).Declares s (os ++ t.followed g) := by
  unfold Declares declarations
  rw [List.filterMap_append]
  obtain ⟨log, _ | a, u, r⟩ := t
  · exact (List.append_nil (declarations os)).symm ▸ h
  · refine (hf a u r).trans ?_
    rw [show u.registry = _ from h]
    exact List.foldl_append.symm

/-- A run in which nothing is observed, and then another. -/
lemma nil_andThen (h : t.Declares s []) {f : α → Session ρ μ → σ → Trace ρ μ σ β}
    {g : α → Session ρ μ → σ → List (Observation ρ μ)}
    (hf : ∀ a s r, (f a s r).Declares s (g a s r)) : (t.andThen f).Declares s (t.followed g) :=
  h.andThen hf

/-- Something else is observed first. -/
lemma cons (h : t.Declares s os) {o : Observation ρ μ} (ho : ∀ c, o ≠ .declared c) :
    t.Declares s (o :: os) := by
  cases o with
  | declared c => exact absurd rfl (ho c)
  | _ => exact h

/-- Something else is observed at the end. -/
lemma followed (h : t.Declares s os) {o : α → Observation ρ μ} (ho : ∀ a c, o a ≠ .declared c) :
    t.Declares s (os ++ t.followed fun a _ _ => [o a]) := by
  have hnil : declarations (t.followed fun a _ _ => [o a]) = [] := by
    refine List.eq_nil_iff_forall_not_mem.2 fun c hc => ?_
    rw [mem_declarations] at hc
    unfold Trace.followed at hc
    split at hc
    · exact ho _ c (List.mem_singleton.1 hc).symm
    · cases hc
  unfold Declares declarations at *
  rwa [List.filterMap_append, hnil, List.append_nil]

/-- The activation of a function. -/
lemma activation {scope : Scope} {bs : List (String × Binding ρ μ)}
    {body : Session ρ μ → σ → Trace ρ μ σ α} {inBody : Session ρ μ → σ → List (Observation ρ μ)}
    (h : ∀ s r, (body s r).Declares s (inBody s r)) (s : Session ρ μ) (r : σ) :
    (Trace.activation scope bs body s r).Declares s (Trace.observedIn inBody scope bs s r) := by
  have hbound : ((s.enter scope).assignAll bs).registry = s.registry := Session.assignAll_registry ..
  have hentered (t : Session ρ μ) :
      (Trace.entered body t r).Declares t (Trace.observedEntered inBody t r) := by
    unfold Trace.entered Trace.observedEntered
    cases t.limits.maxDepth.filter (· ≤ t.depth) with
    | some limit => exact nil rfl
    | none => exact h (t.down t.scope) r
  refine (hentered ((s.enter scope).assignAll bs)).trans ?_
  rw [hbound]
  rfl

end Trace.Declares

namespace Plan

variable [Roller σ]

/-- The registry that the run of a plan leaves has what was declared in it besides, if the runs of
bodies are so.

**Proof sketch.** By induction over the plan. Only a declaration changes the registry. -/
lemma declares_trace
    {body : List (Expr ρ) → (m : Mode) → Session ρ μ → σ → Trace ρ μ σ (m.Answer ρ μ)}
    {inBody : List (Expr ρ) → Mode → Session ρ μ → σ → List (Observation ρ μ)}
    (hbody : ∀ es m s r, (body es m s r).Declares s (inBody es m s r)) {m : Mode} {p : Part}
    (x : Plan ρ μ m p α) (s : Session ρ μ) (r : σ) :
    (x.trace body s r).Declares s (x.observed body inBody s r) := by
  induction x generalizing s r with
  | done a => exact .nil rfl
  | calculate c next ih =>
    exact Trace.Declares.nil_andThen rfl fun b s r => (ih b s r).cons fun _ h => by cases h
  | roll count sides next ih =>
    refine Trace.Declares.nil_andThen ?_ ih
    show ((Run.roll count sides).play s r).2.1.registry = s.registry
    rw [Run.play_roll]
    split <;> rfl
  | lookup name next ih =>
    refine Trace.Declares.nil_andThen ?_ fun b s r => (ih b s r).cons fun _ h => by cases h
    show ((Run.lookup name).play s r).2.1.registry = s.registry
    rw [Run.play_of_done r (Run.exec_lookup name s)]
  | @call m p α shape builtin pairs next hbuiltin hpairs ih =>
    rw [observed, followed_call_done]
    refine Trace.Declares.andThen ?_ ih
    unfold Trace.dispatch
    rcases s.registry.find? shape with _ | b | c
    · exact .nil rfl
    · exact (hbuiltin b s r).followed fun _ _ h => by cases h
    · exact (hpairs c.signature s r).andThen fun bs => .activation (hbody c.body m)
  | frame inner next hinner ih =>
    exact Trace.Declares.andThen (t := Trace.inFrame s _) (hinner (s.enter s.scope) r) ih
  | exact inner next hinner ih => exact (hinner s r).andThen ih
  | evaluate inner next hinner ih => exact (hinner s r).andThen ih
  | assign name b next ih => exact ih (s.assign name b) r
  | declare signature statements next ih =>
    have hexec := Run.exec_declare (μ := μ) signature statements s
    rw [observed, trace]
    unfold Trace.ofRun
    split at hexec
    · rw [Run.play_of_done r hexec]
      exact .nil rfl
    · rw [Run.play_of_done r hexec]
      exact ih _ r

variable [Mass μ]

/-- The registry that the run of a body leaves, with any amount of fuel. -/
lemma declares_traceBody (fuel : Nat) (es : List (Expr ρ)) (m : Mode) (s : Session ρ μ) (r : σ) :
    (traceBody fuel es m s r).Declares s (observedBody fuel es m s r) := by
  induction fuel generalizing es m s r with
  | zero => rfl
  | succ fuel ih => exact declares_trace ih (ofBody es m) s r

end Plan

/-! ## Where declarations stand -/

/-- An expression is another one, or stands inside it. -/
def Expr.Within (e : Expr ρ) : Expr ρ → Prop :=
  Relation.ReflTransGen (fun part whole => part ∈ whole.parts) e

omit [Scalar ρ] in
/-- Whatever stands inside an expression stands inside every expression around that. -/
lemma Expr.every_within {e root : Expr ρ} (h : e.Within root) : e.Every (·.Within root) := by
  induction e using Expr.induction_parts with
  | h e ih => exact .intro h fun part hpart => ih part hpart (.head hpart h)

/-- An expression stands inside another one, or inside the body of a function that is registered. -/
def Session.Mentions (s : Session ρ μ) (root e : Expr ρ) : Prop :=
  e.Within root ∨ ∃ shape c, s.registry.find? shape = some (.user c) ∧ ∃ b ∈ c.body, e.Within b

/-- The promise that only some expressions are run. -/
def Promise.ofNode (μ : Type) (node : Expr ρ → Prop) : Promise ρ μ where
  limits _ := True
  binding _ := True
  law _ := True
  die _ := True
  fault _ := True
  excuse _ := False
  builtin _ _ := True
  node := node

/-- Whichever expressions may be run, nothing else is needed to keep to them. -/
lemma Promise.isSound_ofNode [Mass μ] (node : Expr ρ → Prop) : (ofNode μ node).IsSound where
  external _ _ := trivial
  bound _ := trivial
  read _ _ := Binding.hasLaws_of_forall (fun _ => trivial) _
  certain _ := trivial
  die _ := trivial
  operate _ _ := ⟨fun _ _ _ => trivial, fun _ _ => trivial⟩
  sum _ _ := ⟨fun _ _ _ => trivial, fun _ _ => trivial⟩
  dice _ _ := ⟨fun _ _ _ _ _ => trivial, fun _ _ => trivial⟩
  maximum _ := ⟨fun _ _ _ => trivial, fun _ _ => trivial⟩
  branch _ _ _ := fun _ => trivial
  arguments _ _ := .inr fun _ => trivial

/-- Comparing the mass of a law with one leaves the session as it is. -/
lemma Trace.session_andThen_checked [Mass μ] (t : Trace ρ μ σ (Law ρ μ)) :
    (t.andThen checked).session = t.session := by
  obtain ⟨log, _ | l, s, r⟩ := t <;> rfl

namespace Request

variable [Roller σ] [Mass μ] (q : Request ρ) (s : Session ρ μ) (r : σ)

/-- The session that a request leaves is that of its trace. -/
lemma session_trace : (q.perform.play s r).2.1 = (q.trace s r).session :=
  congrArg (·.2.1) (q.outcome_trace s r).symm

/-- The registry after a request has the declarations of its run besides: under each shape there is
the last function that was declared with it, and otherwise the one that was there before. -/
theorem find?_registry (shape : Shape) : (q.perform.play s r).2.1.registry.find? shape =
    (((declarations (q.observed s r)).reverse.find? fun c => c.signature.shape = shape).map
      .user).or (s.registry.find? shape) := by
  have hdeclares : (q.trace s r).Declares s (q.observed s r) := by
    have hbody := Plan.declares_traceBody (ρ := ρ) (μ := μ) (σ := σ) s.renewed.fuel
    cases q with
    | evaluate e => exact Plan.declares_trace hbody e.plans.value s.renewed r
    | distribution e =>
      have hlaw := Plan.declares_trace hbody (e.plans : Plans ρ μ).law s.renewed r
      exact (congrArg (fun t : Session ρ μ => t.registry) (Trace.session_andThen_checked _)).trans hlaw
    | run e =>
      exact Plan.declares_trace hbody ((e.plans : Plans ρ μ).step .sample) (s.renewed.inScope .global) r
  rw [session_trace, hdeclares, Registry.find?_declareAll]

/-- A function that is declared while a session answers has different parameters, and its declaration
stands in the request or in a function that was registered before. -/
theorem mem_declarations {c : Closure ρ} (hc : c ∈ declarations (q.observed s r)) :
    c.signature.parameters.items.Nodup ∧ s.Mentions q.expr (.declare c.signature c.body) := by
  let P := Promise.ofNode μ (s.Mentions q.expr)
  have hevery {e root : Expr ρ} (h : ∀ e', e'.Within root → s.Mentions q.expr e') (he : e.Within root) :
      e.Every P.node := Expr.Every.mono (P := (·.Within root)) h (Expr.every_within he)
  have hcovers : P.Covers s :=
    ⟨trivial, fun _ _ _ _ => trivial, fun _ => trivial, fun {shape c} hf b hb =>
      hevery (fun e he => .inr ⟨shape, c, hf, b, hb, he⟩) .refl⟩
  have hmet := (Promise.isSound_ofNode (s.Mentions q.expr)).met_request q
    (hevery (fun _ => .inl) .refl) hcovers r
  obtain ⟨-, hseen, -⟩ := hmet fun _ _ => id
  obtain ⟨hparameters, hnode⟩ := hseen _ (DiceCalculus.mem_declarations.1 hc)
  exact ⟨Signature.repeatedParameter?_eq_none_iff.1 hparameters, hnode.self⟩

variable {q s r}

/-- A request that fails keeps all variables.

**Proof sketch.** Only an assignment binds a variable in the global frame, and it does so at its end.
If it fails, then in its right side. -/
theorem find?_frames_of_error {e : Stop ρ μ} (h : (q.perform.play s r).1 = .error e) {i : Nat}
    (hi : i < s.frames.size) (name : String) :
    (q.perform.play s r).2.1.frames.find? i name = s.frames.find? i name := by
  have hresult : (q.trace s r : Trace ρ μ σ _).result = .error e :=
    (congrArg (·.1) (q.outcome_trace s r)).trans h
  have hframe : (q.trace s r).session.frames.frame? i = s.frames.frame? i := by
    cases q with
    | evaluate e => exact (Plan.keeps_traced (e.plans : Plans ρ μ).value s.renewed r).bindings i hi
    | distribution e =>
      have hkeeps := (Plan.keeps_traced (e.plans : Plans ρ μ).law s.renewed r).bindings i hi
      refine Eq.trans ?_ hkeeps
      exact congrArg (fun t : Session ρ μ => t.frames.frame? i) (Trace.session_andThen_checked _)
    | run x =>
      let s' := s.renewed.inScope .global
      by_cases hx : ∃ name y, x = .assign name y
      · obtain ⟨name, y, rfl⟩ := hx
        let x : Plan ρ μ .sample .statement _ := (Expr.assign name y).plans.step .sample
        have houtcome := Plan.outcome_traced (e := .assign name y) (x := x) (f := (·.step .sample))
          (fun _ => rfl) s' r
        rw [Expr.play_step_assign] at houtcome
        obtain ⟨-, hbindings⟩ := Expr.step_assign name y .sample s' r
        rw [Expr.play_step_assign] at hbindings
        generalize (y.ask (·.stored .sample)).play s' r = out at houtcome hbindings
        obtain ⟨e | b, u, r'⟩ := out
        · exact (congrArg (·.2.1.frames.frame? i) houtcome).trans (hbindings i hi)
        · -- the right side has a result, and so has the assignment
          have hok : (x.traced s' r).result = .ok (.next none) := congrArg (·.1) houtcome
          change (x.traced s' r).result.map _ = .error e at hresult
          rw [hok] at hresult
          cases hresult
      · have htidy := Expr.isTidy_step (fun n y h => hx ⟨n, y, h⟩) .sample s' r
        exact (Plan.keeps_of_isTidy htidy).bindings i hi
  rw [session_trace]
  exact congrArg (Option.bind · _) hframe

/-- A declaration that fails declares nothing. -/
lemma declarations_of_error {signature : Signature} {body : List (Expr ρ)} {e : Stop ρ μ}
    (h : ((run (.declare signature body)).perform.play s r).1 = .error e) :
    declarations ((run (.declare signature body)).observed s r) = [] := by
  let s' := s.renewed.inScope .global
  have hexec := Run.exec_declare (μ := μ) signature body s'
  have hresult := (congrArg (·.1) ((run (.declare signature body)).outcome_trace s r)).trans h
  change (Trace.settle s.scope
    (Trace.andThen (Trace.ofRun _ (Run.declare signature body) s' r) _)).result = .error e at hresult
  show declarations ((Plan.declare signature body (.done (.next none)) :
    Plan ρ μ .sample .statement (Flow (Value ρ μ))).observed _ _ s' r) = []
  rw [Plan.observed]
  unfold Trace.ofRun at hresult ⊢
  split at hexec
  · rw [Run.play_of_done r hexec]
    rfl
  · rw [Run.play_of_done r hexec] at hresult
    cases hresult

end Request

/-! ## Failed requests -/

/-- In every session that can be reached, a request that fails for any cause leaves the variables of
all frames that were there before as they were, the global ones among them. The registry answers each
shape with the last function of that shape whose declaration was carried out before the failure, and
as before if there is none. What is declared is complete: its parameters have different names, and the
declaration stands in the request or in the body of a function that was registered before. In
particular a declaration that fails itself leaves the registry as it was. -/
theorem failed_request_leaves_declarations [Roller σ] [Mass μ] (limits : Limits μ)
    (is : List (Interaction ρ μ)) (r₀ : σ) (q : Request ρ) {s t : Session ρ μ} {r r' : σ}
    {e : Stop ρ μ} (hs : (Session.start limits).afterAll is r₀ = (s, r))
    (h : q.perform.play s r = (.error e, t, r')) :
    (0 < s.frames.size ∧
      ∀ i < s.frames.size, ∀ name, t.frames.find? i name = s.frames.find? i name) ∧
    let cs := declarations (q.observed s r)
    (∀ shape, t.registry.find? shape =
      ((cs.reverse.find? fun c => c.signature.shape = shape).map .user).or
        (s.registry.find? shape)) ∧
    (∀ c ∈ cs, c.signature.parameters.items.Nodup ∧
      s.Mentions q.expr (.declare c.signature c.body)) ∧
    ∀ signature body, q = .run (.declare signature body) → cs = [] := by
  have hrest := (Session.isAtRest_start limits).afterAll is r₀
  rw [hs] at hrest
  have hsize : 0 < s.frames.size := Nat.lt_of_le_of_lt (Nat.zero_le _) hrest.consistent.scope.made
  have herror : (q.perform.play s r).1 = .error e := congrArg (·.1) h
  have ht : (q.perform.play s r).2.1 = t := congrArg (·.2.1) h
  refine ⟨⟨hsize, fun i hi => ht ▸ Request.find?_frames_of_error herror hi⟩,
    ht ▸ q.find?_registry s r, fun c => q.mem_declarations s r, ?_⟩
  rintro signature body rfl
  exact Request.declarations_of_error herror

/-- A request that fails may leave a trace: a block declares a function and then fails, and the
function is registered afterwards. -/
theorem failed_request_leaves_function :
    let f : Signature := ⟨"f", .ofList []⟩
    let block : Expr (WithBot ℚ) := .block [.declare f [.output (.literal (.int 1))], .var "nope"]
    let s : Session (WithBot ℚ) ℚ := .start ⟨none, some 1, none, 0⟩
    let p := (Session.evaluate block).play s (⟨1, 1⟩ : Stepper)
    p.1 = .error (.fault (.unboundVariable "nope")) ∧
      (s.registry.find? f.shape).isNone = true ∧ (p.2.1.registry.find? f.shape).isSome = true := by
  refine ⟨rfl, ?_, ?_⟩ <;> decide +kernel

/-- There is a global variable. A block declares a function twice, binds a variable of its own with the
same name, and fails. The global variable is as before, and the second function is registered. -/
theorem failed_request_leaves_declarations_block :
    let f : Signature := ⟨"f", .ofList []⟩
    let two : Binding (WithBot ℚ) ℚ := .value (.number (.int 2))
    let body (i : Int32) : List (Expr (WithBot ℚ)) := [.output (.literal (.int i))]
    let answer (c : Closure (WithBot ℚ)) : Option (Number (WithBot ℚ)) :=
      match c.body with
      | [.output (.literal x)] => some x
      | _ => none
    let q : Request (WithBot ℚ) := .evaluate
      (.block [.declare f (body 3), .assign "x" (.literal (.int 1)), .declare f (body 4), .var "nope"])
    let is : List (Interaction (WithBot ℚ) ℚ) := [.operation (.bindGlobal "x" two)]
    let s := ((Session.start ⟨none, some 1, none, 0⟩).afterAll is (⟨1, 1⟩ : Stepper)).1
    let r := ((Session.start ⟨none, some 1, none, 0⟩).afterAll is (⟨1, 1⟩ : Stepper)).2
    let cs := declarations (q.observed s r)
    cs.map answer = [some (.int 3), some (.int 4)] ∧ ∃ e t r',
      q.perform.play s r = (.error e, t, r') ∧ t.frames.find? 0 "x" = s.frames.find? 0 "x" ∧
      t.registry.find? f.shape = ((cs.reverse.find? fun c => c.signature.shape = f.shape).map
        .user).or (s.registry.find? f.shape) ∧
      ∀ c ∈ cs, s.Mentions q.expr (.declare c.signature c.body) := by
  intro f two body answer q is s r cs
  have hnone : (q.perform.play s r).1.toOption.isNone = true := by decide +kernel
  have hcs : cs.map answer = [some (.int 3), some (.int 4)] := by decide +kernel
  rcases h : q.perform.play s r with ⟨e | v, t, r'⟩
  · obtain ⟨⟨hsize, hframes⟩, hregistry, hmentions, -⟩ := failed_request_leaves_declarations
      (⟨none, some 1, none, 0⟩ : Limits ℚ) is (⟨1, 1⟩ : Stepper) q (s := s) (r := r) rfl h
    exact ⟨hcs, e, t, r', rfl, hframes 0 hsize "x", hregistry f.shape, fun c hc => (hmentions c hc).2⟩
  · rw [h] at hnone
    cases hnone

end DiceCalculus
