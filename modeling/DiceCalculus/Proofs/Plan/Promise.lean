import DiceCalculus.Proofs.Expr.Parts
import DiceCalculus.Proofs.Plan.Observed
import DiceCalculus.Proofs.Sessions

set_option autoImplicit false
set_option relaxedAutoImplicit false

/-!
# Promises about the runs of plans

What holds of everything that a run binds and computes, and of the causes for which it may fail, is a
promise. A plan keeps it if each of its steps does; that is a statement about the plan alone, in which
no session is run. A run of such a plan then has a result as promised, or fails for a cause that is
allowed, unless something is observed on the way that excuses it.

## Main definitions

* `Promise` — what holds of bindings and laws, why a run may fail, and what excuses it.
* `Promise.Keeps` — the steps of a plan keep a promise and lead to results with a property.
* `Promise.Covers` — a session in which a promise can be kept.
* `Promise.Met` — a run has a result as promised, or an excuse.

## Main results

* `Promise.met_trace` — the run of a plan that keeps a promise meets it.

## Design

A contract (`DiceCalculus.Proofs.Run.Contract`) is kept by all ways in which a computation can go on
and allows every ordinary fault. A promise is about one run, and may exclude faults or be excused; what
it says about a step may therefore depend on all that the step is given.
-/

namespace DiceCalculus

variable {ρ μ : Type} [Scalar ρ] {σ α β : Type}

/-- A fault that is not found in what a user writes but in how values are handed on inside an
evaluation. -/
def Fault.IsInternal : Fault ρ μ → Prop
  | unsupported _ .absentDie | compoundOperand _ | wrongArity _ _ => True
  | missingPositional _ | missingKeyword _ => True
  | _ => False

/-- What is promised of a run. -/
structure Promise (ρ μ : Type) [Scalar ρ] : Type 1 where
  /-- The limits under which it is promised. -/
  limits : Limits μ → Prop
  /-- What holds of everything that a variable holds. -/
  binding : Binding ρ μ → Prop
  /-- What holds of every law of an expression. -/
  law : Law ρ μ → Prop
  /-- What holds of every law of a component. -/
  die : Law ρ μ → Prop
  /-- Why a run may fail. -/
  fault : Fault ρ μ → Prop
  /-- Observations that excuse a run. -/
  excuse : Observation ρ μ → Prop
  /-- Under which shapes a built-in function may be registered. -/
  builtin : Shape → Builtin → Prop
  /-- The expressions that may be run. -/
  node : Expr ρ → Prop

namespace Promise

variable (P : Promise ρ μ)

/-- A calculation comes, under the limits of a promise, to a result with a property or fails for a
cause that is allowed. -/
structure Calculates (c : Calculation ρ μ β) (Q : β → Prop) : Prop where
  /-- Results have the property, unless they are an excuse. -/
  ok : ∀ {limits b}, P.limits limits → c.under limits = .ok b → ¬P.excuse (.calculated c) → Q b
  /-- Causes of a failure are allowed. -/
  error : ∀ {limits f}, P.limits limits → c.under limits = .error f → P.fault f

/-- The steps of a plan keep a promise and lead to results with a property. -/
def Keeps {m : Mode} {p : Part} {α : Type} : Plan ρ μ m p α → (α → Prop) → Prop
  | .done a, Q => Q a
  | .calculate c next, Q => P.Calculates c fun b => Keeps (next b) Q
  | .roll _ _ next, Q => ∀ faces, Keeps (next faces) Q
  | .lookup name next, Q => ∀ b, P.binding b → ¬P.excuse (.read name b) → Keeps (next b) Q
  | @Plan.call _ _ _ m _ _ shape builtin pairs next, Q =>
    (∀ b, P.builtin shape b → Keeps (builtin b) fun a =>
      ¬P.excuse (.answered b a) → m.HasLaws P.law a) ∧
    (∀ signature, Keeps (pairs signature) fun bs => ∀ b ∈ bs, P.binding b.2) ∧
    ∀ a, m.HasLaws P.law a → Keeps (next a) Q
  | .frame inner next, Q => Keeps inner fun b => Keeps (next b) Q
  | .exact inner next, Q => Keeps inner fun b => Keeps (next b) Q
  | .evaluate inner next, Q => Keeps inner fun b => Keeps (next b) Q
  | .assign _ b next, Q => P.binding b ∧ Keeps next Q
  | .declare signature body next, Q => (Expr.declare signature body).Every P.node ∧ Keeps next Q

/-- A session in which a promise can be kept. -/
structure Covers (s : Session ρ μ) : Prop where
  /-- The limits are those of the promise. -/
  limits : P.limits s.limits
  /-- What the variables hold is as promised. -/
  bindings : ∀ i, s.frames.Holds P.binding i
  /-- Built-in functions are registered where they may be. -/
  builtins : ∀ {shape b}, s.registry.find? shape = some (.builtin b) → P.builtin shape b
  /-- The bodies of the registered functions may be run. -/
  bodies : ∀ {shape c}, s.registry.find? shape = some (.user c) → ∀ e ∈ c.body, e.Every P.node

/-- What a run may come to. -/
def Allows (Q : α → Prop) : Except (Stop ρ μ) α → Prop
  | .ok a => Q a
  | .error (.fault f) => P.fault f
  | .error .outOfFuel => True

/-- A function that may be declared. -/
structure MayDeclare (c : Closure ρ) : Prop where
  /-- The parameters have different names. -/
  parameters : c.signature.repeatedParameter? = none
  /-- The declaration may be run. -/
  node : (Expr.declare c.signature c.body).Every P.node

/-- An observation as promised: what is read and what a built-in function answers is so, and what is
declared may be. -/
def Sees : Observation ρ μ → Prop
  | .calculated _ => True
  | .read _ b => P.binding b
  | @Observation.answered _ _ _ m _ a => m.HasLaws P.law a
  | .declared c => P.MayDeclare c

/-- A run without an excuse leaves a session in which the promise can be kept on, has observed what is
promised, and has a result as promised. -/
def Met (t : Trace ρ μ σ α) (os : List (Observation ρ μ)) (Q : α → Prop) : Prop :=
  (∀ o ∈ os, ¬P.excuse o) → P.Covers t.session ∧ (∀ o ∈ os, P.Sees o) ∧ P.Allows Q t.result

variable {P} {Q Q' : α → Prop} {s : Session ρ μ} {r : σ} {os : List (Observation ρ μ)}

/-! ## Plans in turn -/

/-- A calculation with results of a weaker property. -/
lemma Calculates.mono {c : Calculation ρ μ α} (h : P.Calculates c Q) (hQ : ∀ a, Q a → Q' a) :
    P.Calculates c Q' := ⟨fun hl hb he => hQ _ (h.ok hl hb he), h.error⟩

/-- A plan that leads to results with a property leads to results with a weaker one. -/
lemma Keeps.mono {m : Mode} {p : Part} {x : Plan ρ μ m p α} (h : P.Keeps x Q)
    (hQ : ∀ a, Q a → Q' a) : P.Keeps x Q' := by
  induction x with
  | done a => exact hQ a h
  | calculate c next ih => exact Calculates.mono h fun b hb => ih b hb hQ
  | roll count sides next ih => exact fun faces => ih faces (h faces) hQ
  | lookup name next ih => exact fun b hb he => ih b (h b hb he) hQ
  | call shape builtin pairs next _ _ ih => exact ⟨h.1, h.2.1, fun a ha => ih a (h.2.2 a ha) hQ⟩
  | frame inner next hinner ih => exact hinner h fun b hb => ih b hb hQ
  | exact inner next hinner ih => exact hinner h fun b hb => ih b hb hQ
  | evaluate inner next hinner ih => exact hinner h fun b hb => ih b hb hQ
  | assign name b next ih => exact ⟨h.1, ih h.2 hQ⟩
  | declare signature body next ih => exact ⟨h.1, ih h.2 hQ⟩

/-- Plans in turn keep a promise. -/
lemma Keeps.bind {m : Mode} {p : Part} {x : Plan ρ μ m p α} (hx : P.Keeps x Q)
    {f : α → Plan ρ μ m p β} {R : β → Prop} (hf : ∀ a, Q a → P.Keeps (f a) R) :
    P.Keeps (x >>= f) R := by
  show P.Keeps (x.bind f) R
  induction x with
  | done a => exact hf a hx
  | calculate c next ih => exact Calculates.mono hx fun b hb => ih b hb hf
  | roll count sides next ih => exact fun faces => ih faces (hx faces) hf
  | lookup name next ih => exact fun b hb he => ih b (hx b hb he) hf
  | call shape builtin pairs next _ _ ih => exact ⟨hx.1, hx.2.1, fun a ha => ih a (hx.2.2 a ha) hf⟩
  | frame inner next _ ih => exact Keeps.mono (x := inner) hx fun b hb => ih b hb hf
  | exact inner next _ ih => exact Keeps.mono (x := inner) hx fun b hb => ih b hb hf
  | evaluate inner next _ ih => exact Keeps.mono (x := inner) hx fun b hb => ih b hb hf
  | assign name b next ih => exact ⟨hx.1, ih hx.2 hf⟩
  | declare signature body next ih => exact ⟨hx.1, ih hx.2 hf⟩

/-- An expression that is evaluated in a statement. -/
lemma Keeps.evaluate {m : Mode} {x : Plan ρ μ m .expression α} (hx : P.Keeps x Q)
    {f : α → Plan ρ μ m .statement β} {R : β → Prop} (hf : ∀ a, Q a → P.Keeps (f a) R) :
    P.Keeps (.evaluate x f) R := Keeps.mono (x := x) hx hf

/-- Statements that are run in a fresh frame. -/
lemma Keeps.frame {m : Mode} {p : Part} {x : Plan ρ μ m .statement α} (hx : P.Keeps x Q)
    {f : α → Plan ρ μ m p β} {R : β → Prop} (hf : ∀ a, Q a → P.Keeps (f a) R) :
    P.Keeps (.frame x f) R := Keeps.mono (x := x) hx hf

/-- A law that is computed on the way of a sample. -/
lemma Keeps.exact {p : Part} {x : Plan ρ μ .exact .expression α} (hx : P.Keeps x Q)
    {f : α → Plan ρ μ .sample p β} {R : β → Prop} (hf : ∀ a, Q a → P.Keeps (f a) R) :
    P.Keeps (.exact x f) R := Keeps.mono (x := x) hx hf

/-- A call of whatever function is registered. -/
lemma Keeps.call {m : Mode} {shape : Shape}
    {builtin : Builtin → Plan ρ μ m .expression (m.Answer ρ μ)}
    {pairs : Signature → Plan ρ μ m .expression (List (String × Binding ρ μ))}
    (hbuiltin : ∀ b, P.builtin shape b → P.Keeps (builtin b) fun a =>
      ¬P.excuse (.answered b a) → m.HasLaws P.law a)
    (hpairs : ∀ signature, P.Keeps (pairs signature) fun bs => ∀ b ∈ bs, P.binding b.2) :
    P.Keeps (.call shape builtin pairs .done : Plan ρ μ m .expression _) (m.HasLaws P.law) :=
  And.intro hbuiltin (And.intro hpairs fun _ ha => ha)

/-- A plan for every item of a list keeps a promise. -/
lemma Keeps.each {δ : Type 1} {m : Mode} {p : Part} {f : δ → Plan ρ μ m p α} {ds : List δ}
    (h : ∀ d ∈ ds, P.Keeps (f d) Q) : P.Keeps (Plan.each f ds) fun as => ∀ a ∈ as, Q a := by
  induction ds with
  | nil => exact fun _ => nofun
  | cons d ds ih =>
    rw [List.forall_mem_cons] at h
    exact h.1.bind fun a ha => (ih h.2).bind fun as has => List.forall_mem_cons.2 ⟨ha, has⟩

/-! ## Runs in turn -/

/-- A run that observes nothing, in a session in which the promise can be kept. -/
lemma met_nil {t : Trace ρ μ σ α} (ht : P.Covers t.session) (h : P.Allows Q t.result) :
    P.Met t [] Q := fun _ => ⟨ht, nofun, h⟩

/-- A run meets a promise if it does so in two parts, one after the other. -/
lemma Met.andThen {t : Trace ρ μ σ α} (h : P.Met t os Q)
    {f : α → Session ρ μ → σ → Trace ρ μ σ β} {g : α → Session ρ μ → σ → List (Observation ρ μ)}
    {R : β → Prop} (hf : ∀ a s r, P.Covers s → Q a → P.Met (f a s r) (g a s r) R) :
    P.Met (t.andThen f) (os ++ t.followed g) R := by
  intro he
  rw [List.forall_mem_append] at he
  obtain ⟨hcovers, hseen, hresult⟩ := h he.1
  obtain ⟨log, (fault | _) | a, s, r⟩ := t
  · exact ⟨hcovers, (List.append_nil os).symm ▸ hseen, hresult⟩
  · exact ⟨hcovers, (List.append_nil os).symm ▸ hseen, trivial⟩
  · obtain ⟨hcovers', hseen', hresult'⟩ := hf a s r hcovers hresult he.2
    exact ⟨hcovers', List.forall_mem_append.2 ⟨hseen, hseen'⟩, hresult'⟩

/-- A run in which nothing is observed, and then another. -/
lemma Met.nil_andThen {t : Trace ρ μ σ α} (h : P.Met t [] Q)
    {f : α → Session ρ μ → σ → Trace ρ μ σ β} {g : α → Session ρ μ → σ → List (Observation ρ μ)}
    {R : β → Prop} (hf : ∀ a s r, P.Covers s → Q a → P.Met (f a s r) (g a s r) R) :
    P.Met (t.andThen f) (t.followed g) R := h.andThen hf

/-- A run that goes on with something in which nothing is observed. -/
lemma Met.andThen_nil {t : Trace ρ μ σ α} (h : P.Met t os Q)
    {f : α → Session ρ μ → σ → Trace ρ μ σ β} {R : β → Prop}
    (hf : ∀ a s r, P.Covers s → Q a → P.Met (f a s r) [] R) : P.Met (t.andThen f) os R := by
  have hmet := h.andThen (g := fun _ _ _ => []) hf
  have hnil : t.followed (fun _ _ _ => []) = [] := by
    unfold Trace.followed
    split <;> rfl
  rwa [hnil, List.append_nil] at hmet

/-- The run of a statement, with the value that it hands over. -/
lemma Met.settle {t : Trace ρ μ σ (Flow α)} (h : P.Met t os (Flow.Holds Q)) (scope : Scope) :
    P.Met (t.settle scope) os fun v => ∀ a, v = some a → Q a := by
  intro he
  obtain ⟨hcovers, hseen, hresult⟩ := h he
  refine ⟨⟨hcovers.limits, hcovers.bindings, hcovers.builtins, hcovers.bodies⟩, hseen, ?_⟩
  obtain ⟨log, (f | _) | v | a, s, r⟩ := t
  · exact hresult
  · trivial
  · exact hresult
  · exact fun _ ha => Option.some_inj.1 ha ▸ hresult

/-- An observation at the beginning of a run. -/
lemma Met.cons {t : Trace ρ μ σ α} {o : Observation ρ μ} (ho : P.Sees o)
    (h : ¬P.excuse o → P.Met t os Q) : P.Met t (o :: os) Q := by
  intro he
  rw [List.forall_mem_cons] at he
  obtain ⟨hcovers, hseen, hresult⟩ := h he.1 he.2
  exact ⟨hcovers, List.forall_mem_cons.2 ⟨ho, hseen⟩, hresult⟩

/-- An observation at the end of a run releases from what is promised of its result. -/
lemma Met.followed {t : Trace ρ μ σ α} {o : α → Observation ρ μ}
    (h : P.Met t os fun a => ¬P.excuse (o a) → Q a) (ho : ∀ a, Q a → P.Sees (o a)) :
    P.Met t (os ++ t.followed fun a _ _ => [o a]) Q := by
  intro he
  rw [List.forall_mem_append] at he
  obtain ⟨hcovers, hseen, hresult⟩ := h he.1
  obtain ⟨log, (fault | _) | a, s, r⟩ := t
  · exact ⟨hcovers, (List.append_nil os).symm ▸ hseen, hresult⟩
  · exact ⟨hcovers, (List.append_nil os).symm ▸ hseen, trivial⟩
  · have ha : Q a := hresult (he.2 _ (List.mem_singleton_self _))
    exact ⟨hcovers, List.forall_mem_append.2 ⟨hseen, List.forall_mem_singleton.2 (ho a ha)⟩, ha⟩

/-! ## Sessions -/

namespace Covers

/-- A name is bound as promised. -/
lemma assign (h : P.Covers s) (name : String) {b : Binding ρ μ} (hb : P.binding b) :
    P.Covers (s.assign name b) :=
  ⟨h.limits, fun i => (h.bindings i).assign s.scope name hb, h.builtins, h.bodies⟩

/-- Names are bound as promised, one after the other. -/
lemma assignAll (h : P.Covers s) {bs : List (String × Binding ρ μ)}
    (hbs : ∀ b ∈ bs, P.binding b.2) : P.Covers (s.assignAll bs) := by
  induction bs generalizing s with
  | nil => exact h
  | cons b bs ih =>
    rw [List.forall_mem_cons] at hbs
    exact ih (h.assign b.1 hbs.1) hbs.2

/-- A fresh frame binds nothing. -/
lemma enter (h : P.Covers s) (scope : Scope) : P.Covers (s.enter scope) :=
  ⟨h.limits, fun i => Frames.holds_enter_iff.2 (h.bindings i), h.builtins, h.bodies⟩

/-- A promise does not depend on the scope. -/
lemma inScope (h : P.Covers s) (scope : Scope) : P.Covers (s.inScope scope) :=
  ⟨h.limits, h.bindings, h.builtins, h.bodies⟩

/-- A promise does not depend on the depth. -/
lemma down (h : P.Covers s) (scope : Scope) : P.Covers (s.down scope) :=
  ⟨h.limits, h.bindings, h.builtins, h.bodies⟩

/-- A promise does not depend on the depth. -/
lemma up (h : P.Covers s) (scope : Scope) : P.Covers (s.up scope) :=
  ⟨h.limits, h.bindings, h.builtins, h.bodies⟩

/-- A promise does not depend on the dice that are spent. -/
lemma spend (h : P.Covers s) (spent : Nat) : P.Covers { s with spent := spent } :=
  ⟨h.limits, h.bindings, h.builtins, h.bodies⟩

/-- A promise does not depend on the dice that are spent, nor on the depth. -/
lemma renewed (h : P.Covers s) : P.Covers s.renewed :=
  ⟨h.limits, h.bindings, h.builtins, h.bodies⟩

/-- A function is declared that may be. -/
lemma declare (h : P.Covers s) {c : Closure ρ} (hc : (Expr.declare c.signature c.body).Every P.node) :
    P.Covers { s with registry := s.registry.insert c.signature.shape (.user c) } := by
  refine ⟨h.limits, h.bindings, fun {shape b} hb => ?_, fun {shape c'} hc' => ?_⟩
  · rw [Dictionary.find?_insert] at hb
    split at hb
    · cases hb
    · exact h.builtins hb
  · rw [Dictionary.find?_insert] at hc'
    split at hc'
    · obtain rfl := Function.user.inj (Option.some_inj.1 hc')
      exact fun e he => hc.of_mem_parts he
    · exact h.bodies hc'

end Covers

/-! ## The run of a plan -/

/-- A run in a fresh frame meets a promise. -/
lemma Met.inFrame {t : Trace ρ μ σ α} (h : P.Met t os Q) (s : Session ρ μ) :
    P.Met (Trace.inFrame s t) os Q := fun he =>
  ⟨(h he).1.inScope s.scope, (h he).2⟩

section Trace

variable
  {body : List (Expr ρ) → (m : Mode) → Session ρ μ → σ → Trace ρ μ σ (m.Answer ρ μ)}
  {inBody : List (Expr ρ) → Mode → Session ρ μ → σ → List (Observation ρ μ)}

/-- The runs of bodies meet a promise. -/
def MetInBodies (P : Promise ρ μ)
    (body : List (Expr ρ) → (m : Mode) → Session ρ μ → σ → Trace ρ μ σ (m.Answer ρ μ))
    (inBody : List (Expr ρ) → Mode → Session ρ μ → σ → List (Observation ρ μ)) : Prop :=
  ∀ {es : List (Expr ρ)} {s : Session ρ μ} (m : Mode) (r : σ), (∀ e ∈ es, e.Every P.node) →
    P.Covers s → P.Met (body es m s r) (inBody es m s r) (m.HasLaws P.law)

variable (hfault : ∀ f : Fault ρ μ, ¬f.IsInternal → P.fault f)

include hfault

/-- The activation of a function meets a promise if the run of its body does. -/
lemma met_activation {c : Closure ρ} (hc : ∀ e ∈ c.body, e.Every P.node) {m : Mode}
    (hbody : P.MetInBodies body inBody) {bs : List (String × Binding ρ μ)}
    (hbs : ∀ b ∈ bs, P.binding b.2) (hs : P.Covers s) (r : σ) :
    P.Met (Trace.activation c.scope bs (body c.body m) s r)
      (Trace.observedIn (inBody c.body m) c.scope bs s r) (m.HasLaws P.law) := by
  have hbound : P.Covers ((s.enter c.scope).assignAll bs) := (hs.enter c.scope).assignAll hbs
  refine Met.inFrame ?_ s
  show P.Met (Trace.andThen ⟨_, .ok (), _, _⟩ fun _ => Trace.entered (body c.body m)) _ _
  refine (met_nil (t := ⟨_, .ok (), _, _⟩) (Q := fun _ => True) hbound trivial).andThen
    (g := fun _ => Trace.observedEntered (inBody c.body m)) fun _ t r ht _ => ?_
  unfold Trace.entered Trace.observedEntered
  cases t.limits.maxDepth.filter (· ≤ t.depth) with
  | some limit => exact met_nil ht (hfault (.tooDeep limit) id)
  | none =>
    have hrun := hbody m r hc (ht.down t.scope)
    exact fun he => ⟨(hrun he).1.up t.scope, (hrun he).2⟩

variable [Roller σ]

/-- The run of a plan that keeps a promise meets it, if the runs of bodies do.

**Proof sketch.** By induction over the plan. The session between two steps is one in which the promise
can be kept, so that what is found in it is as promised, and so are the bodies of its functions. -/
theorem met_trace (hbody : P.MetInBodies body inBody) {m : Mode} {p : Part} {x : Plan ρ μ m p α}
    (hx : P.Keeps x Q) (hs : P.Covers s) (r : σ) :
    P.Met (x.trace body s r) (x.observed body inBody s r) Q := by
  induction x generalizing s r with
  | done a => exact met_nil hs hx
  | calculate c next ih =>
    refine Met.nil_andThen (Q := fun b => c.under s.limits = .ok b) (met_nil hs ?_)
      fun b t r ht hb => .cons (o := .calculated c) trivial fun he => ih b (hx.ok hs.limits hb he) ht r
    cases hc : c.under s.limits with
    | error f => exact hx.error hs.limits hc
    | ok b => rfl
  | roll count sides next ih =>
    refine Met.nil_andThen (Q := fun _ => True) ?_ fun faces s r hs _ => ih faces (hx faces) hs r
    unfold Trace.ofRun
    rw [Run.play_roll]
    split
    · exact met_nil (hs.spend _) trivial
    · exact met_nil (hs.spend _) (hfault .tooManyRolls id)
  | lookup name next ih =>
    refine Met.nil_andThen (Q := P.binding) ?_
      fun b t r ht hb => .cons (o := .read name b) hb fun he => ih b (hx b hb he) ht r
    unfold Trace.ofRun
    rw [Run.play_of_done r (Run.exec_lookup name s)]
    refine met_nil hs ?_
    cases hb : s.frames.lookup? s.scope name with
    | none => exact hfault (.unboundVariable name) id
    | some b => exact Frames.of_lookup? (fun i _ => hs.bindings i) hb
  | @call m p α shape builtin pairs next hbuiltin hpairs ih =>
    obtain ⟨hx, hx', hx''⟩ := hx
    rw [Plan.observed, Plan.followed_call_done]
    refine Met.andThen (Q := m.HasLaws P.law) ?_ fun a s r hs ha => ih a (hx'' a ha) hs r
    unfold Trace.dispatch
    cases hf : s.registry.find? shape with
    | none => exact met_nil hs (hfault (.unknownShape shape) id)
    | some f =>
      cases f with
      | builtin b => exact (hbuiltin b (hx b (hs.builtins hf)) hs r).followed fun _ ha => ha
      | user c =>
        exact (hpairs c.signature (hx' c.signature) hs r).andThen fun bs t r ht hbs =>
          met_activation hfault (hs.bodies hf) hbody hbs ht r
  | frame inner next hinner ih =>
    exact ((hinner hx (hs.enter s.scope) r).inFrame s).andThen fun b s r hs hb => ih b hb hs r
  | exact inner next hinner ih =>
    exact (hinner hx hs r).andThen fun b s r hs hb => ih b hb hs r
  | evaluate inner next hinner ih =>
    exact (hinner hx hs r).andThen fun b s r hs hb => ih b hb hs r
  | assign name b next ih =>
    exact ih hx.2 (hs.assign name hx.1) r
  | declare signature statements next ih =>
    have hexec := Run.exec_declare (μ := μ) signature statements s
    refine Met.nil_andThen
      (Q := fun _ => P.MayDeclare ⟨signature, statements, s.scope⟩) ?_
      fun _ t r ht hc => .cons (o := .declared _) hc fun _ => ih hx.2 ht r
    unfold Trace.ofRun
    split at hexec
    · next name hrepeated =>
      rw [Run.play_of_done r hexec]
      exact met_nil hs (hfault (.repeatedParameter name) id)
    · next hrepeated =>
      rw [Run.play_of_done r hexec]
      exact met_nil (hs.declare (c := ⟨signature, statements, s.scope⟩) hx.1) ⟨hrepeated, hx.1⟩

end Trace

end Promise

end DiceCalculus
