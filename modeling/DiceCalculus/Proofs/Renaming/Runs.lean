import DiceCalculus.Proofs.FrameEffect
import DiceCalculus.Proofs.Plan.Questions
import DiceCalculus.Proofs.Renaming.Sessions

set_option autoImplicit false
set_option relaxedAutoImplicit false

/-!
# Runs from sessions that are alike

From two sessions that are alike, in scopes that are alike, every run goes alike: it has the same
result, asks for the same dice, and leaves sessions that are alike again, by a renaming in which the
frames that were made in the meantime stand for one another.

## Main definitions

* `Trace.requests` — the dice that a run asks for.
* `Trace.Alike` — runs that go alike.

## Main results

* `Trace.Alike.andThen`, `Trace.Alike.activation` — runs in turn, and activations of a function from
  any two scopes.
* `Plan.alike_trace`, `Plan.alike_traced` — every plan, by induction over its steps.
* `Request.alike_trace` — everything that a session is asked.
-/

namespace DiceCalculus

variable {ρ μ : Type} [Scalar ρ] {σ α β : Type}

/-! ## Requests -/

/-- The number of dice and of their sides, if dice are asked for. -/
def Event.request? : Event ρ μ → Option (Nat × Nat)
  | rolled count sides => some (count, sides)
  | _ => none

namespace Trace

/-- The dice that a run asks for, request by request. -/
def requests (t : Trace ρ μ σ α) : List (Nat × Nat) := t.log.filterMap Event.request?

/-- The requests of runs in turn. -/
lemma requests_andThen (t : Trace ρ μ σ α) (f : α → Session ρ μ → σ → Trace ρ μ σ β) :
    (t.andThen f).requests = t.requests ++
      match t.result with
      | .ok a => (f a t.session t.roller).requests
      | .error _ => [] := by
  obtain ⟨log, _ | a, s, r⟩ := t
  · exact (List.append_nil _).symm
  · exact List.filterMap_append

/-- The requests of a run in a fresh frame. -/
lemma requests_inFrame (s : Session ρ μ) (t : Trace ρ μ σ α) :
    (inFrame s t).requests = t.requests := by
  show (t.log ++ [Event.closed s.frames.size]).filterMap Event.request? = _
  rw [List.filterMap_append]
  exact List.append_nil _

/-- The requests of a run of a body. -/
lemma requests_inCall (scope : Scope) (t : Trace ρ μ σ α) : (inCall scope t).requests = t.requests := by
  show (t.log ++ [Event.returned]).filterMap Event.request? = _
  rw [List.filterMap_append]
  exact List.append_nil _

end Trace

/-! ## Runs that go alike -/

/-- A later session in the same scope, with no fewer frames. -/
structure Session.Precedes (s t : Session ρ μ) : Prop where
  /-- The scope is the same. -/
  scope : t.scope = s.scope
  /-- No frame is removed. -/
  grows : s.frames.size ≤ t.frames.size

namespace Trace

/-- Runs that go alike, from two sessions that are alike. -/
structure Alike (π : Renaming) (s s' : Session ρ μ) (t t' : Trace ρ μ σ α) : Prop where
  /-- The results are the same. -/
  result : t'.result = t.result
  /-- The rollers that are left are the same. -/
  roller : t'.roller = t.roller
  /-- The same dice are asked for. -/
  requests : t'.requests = t.requests
  /-- The first run ends in the scope in which it began. -/
  left : s.Precedes t.session
  /-- So does the second. -/
  right : s'.Precedes t'.session
  /-- The sessions that are left are alike, by a renaming with fresh pairs. -/
  session : ∃ π' : Renaming, π'.Extends π s.frames.size s'.frames.size ∧ t.session.Alike π' t'.session

namespace Alike

variable {π : Renaming} {s s' : Session ρ μ} {t t' : Trace ρ μ σ α}

/-- Runs of a step that makes no frame and leaves the scopes. -/
lemma of_step {log log' : List (Event ρ μ)} {x : Except (Stop ρ μ) α} {u u' : Session ρ μ} {r : σ}
    (hlog : log'.filterMap Event.request? = log.filterMap Event.request?) (hu : s.Precedes u)
    (hu' : s'.Precedes u') (h : u.Alike π u') :
    Trace.Alike π s s' ⟨log, x, u, r⟩ ⟨log', x, u', r⟩ :=
  ⟨rfl, rfl, hlog, hu, hu', π, .refl .., h⟩

/-- Runs that do nothing. -/
lemma idle (h : s.Alike π s') (log : List (Event ρ μ)) (x : Except (Stop ρ μ) α) (r : σ) :
    Trace.Alike π s s' ⟨log, x, s, r⟩ ⟨log, x, s', r⟩ :=
  of_step rfl ⟨rfl, Nat.le_refl _⟩ ⟨rfl, Nat.le_refl _⟩ h

/-- Runs in turn. -/
theorem andThen (h : t.Alike π s s' t') {f g : α → Session ρ μ → σ → Trace ρ μ σ β}
    (hf : ∀ a π' u u' r, π'.Extends π s.frames.size s'.frames.size → u.Alike π' u' →
      s.Precedes u → s'.Precedes u' → (f a u r).Alike π' u u' (g a u' r)) :
    (t.andThen f).Alike π s s' (t'.andThen g) := by
  obtain ⟨log, x, u, r⟩ := t
  obtain ⟨log', x', u', r'⟩ := t'
  obtain ⟨hresult, hroller, hrequests, hleft, hright, π', hπ', hu⟩ := h
  change x' = x at hresult
  change r' = r at hroller
  subst hresult hroller
  cases x' with
  | error e => exact ⟨rfl, rfl, hrequests, hleft, hright, π', hπ', hu⟩
  | ok a =>
    obtain ⟨hresult, hroller, hnext, hleft', hright', π'', hπ'', hsession⟩ :=
      hf a π' u u' r' hπ' hu hleft hright
    refine ⟨hresult, hroller, ?_, ⟨hleft'.scope.trans hleft.scope, hleft.grows.trans hleft'.grows⟩,
      ⟨hright'.scope.trans hright.scope, hright.grows.trans hright'.grows⟩, π'',
      hπ'.trans hπ'' hleft.grows hright.grows, hsession⟩
    rw [requests_andThen, requests_andThen, hrequests]
    exact congrArg _ hnext

/-- Runs in fresh frames inside any two scopes. -/
lemma inFrame (scope scope' : Scope)
    (h : t.Alike (π.insert s.frames.size s'.frames.size) (s.enter scope) (s'.enter scope') t') :
    (Trace.inFrame s t).Alike π s s' (Trace.inFrame s' t') := by
  obtain ⟨π', hπ', hsession⟩ := h.session
  have hsize := Session.size_le_enter s scope
  have hsize' := Session.size_le_enter s' scope'
  refine ⟨h.result, h.roller, ?_, ⟨rfl, hsize.trans h.left.grows⟩, ⟨rfl, hsize'.trans h.right.grows⟩,
    π', (π.extends_insert _ _).trans hπ' hsize hsize', hsession.inScope _ _⟩
  rw [requests_inFrame, requests_inFrame, h.requests]

/-- Bodies that are entered from the scopes in which they are run. -/
lemma entered (hs : s.Alike π s') {body body' : Session ρ μ → σ → Trace ρ μ σ α} {r : σ}
    (h : (body (s.down s.scope) r).Alike π (s.down s.scope) (s'.down s'.scope)
      (body' (s'.down s'.scope) r)) :
    (Trace.entered body s r).Alike π s s' (Trace.entered body' s' r) := by
  unfold Trace.entered
  rw [hs.limits, hs.depth]
  split
  · exact idle hs _ _ r
  · obtain ⟨π', hπ', hsession⟩ := h.session
    refine ⟨h.result, h.roller, ?_, ⟨rfl, h.left.grows⟩, ⟨rfl, h.right.grows⟩, π', hπ',
      hsession.up _ _⟩
    rw [requests_inCall, requests_inCall, h.requests]

/-- Activations of a function from any two scopes: only the scopes of its declaration are alike. -/
theorem activation (hs : s.Alike π s') {scope scope' : Scope} (hscope : scope.Alike π scope')
    (bs : List (String × Binding ρ μ)) {body body' : Session ρ μ → σ → Trace ρ μ σ α}
    (h : ∀ π' u u' r, u.Alike π' u' → u.scope.Alike π' u'.scope →
      (body u r).Alike π' u u' (body' u' r)) (r : σ) :
    (Trace.activation scope bs body s r).Alike π s s' (Trace.activation scope' bs body' s' r) := by
  have henter := hs.enter scope scope'
  have hinner : (s.enter scope).scope.Alike _ (s'.enter scope').scope :=
    Session.Alike.enter_scope hscope
  have hsize {u : Session ρ μ} : u.Precedes (u.assignAll bs) := by
    refine ⟨Session.assignAll_scope .., ?_⟩
    induction bs generalizing u with
    | nil => exact Nat.le_refl _
    | cons b bs ih => exact (Session.size_le_assign u b.1 b.2).trans ih
  refine inFrame scope scope' (Alike.andThen (of_step ?_ hsize hsize
    (henter.assignAll (.inr ⟨rfl, rfl⟩) bs)) fun _ π' u u' r hπ' hu hleft hright => ?_)
  · simp only [List.filterMap_map]
    rfl
  · have hbody : u.scope.Alike π' u'.scope := by
      rw [hleft.scope, hright.scope]
      exact hinner.extend hπ'
    exact entered hu (h π' (u.down u.scope) (u'.down u'.scope) r (hu.down _ _) hbody)

variable [Roller σ]

/-- Requests for dice. -/
lemma roll (h : s.Alike π s') (count sides : Nat) (r : σ) :
    (Trace.ofRun (fun _ => [.rolled count sides]) (Run.roll count sides) s r).Alike π s s'
      (Trace.ofRun (fun _ => [.rolled count sides]) (Run.roll count sides) s' r) := by
  have hallows : Limits.allows s'.limits.maxRolls (s'.spent + count) =
      Limits.allows s.limits.maxRolls (s.spent + count) := by
    rw [h.limits, h.spent]
  unfold Trace.ofRun
  rw [Run.play_roll, Run.play_roll, hallows]
  split <;> exact of_step rfl ⟨rfl, Nat.le_refl _⟩ ⟨rfl, Nat.le_refl _⟩ (h.spend count)

/-- Lookups in scopes that are alike. -/
lemma lookup (h : s.Alike π s') (hscope : s.scope.Alike π s'.scope) (name : String) (r : σ) :
    (Trace.ofRun (fun _ => []) (Run.lookup name) s r).Alike π s s'
      (Trace.ofRun (fun _ => []) (Run.lookup name) s' r) := by
  unfold Trace.ofRun
  rw [Run.play_of_done r (Run.exec_lookup name s), Run.play_of_done r (Run.exec_lookup name s'),
    h.lookup?_eq hscope]
  exact idle h _ _ r

/-- Names that are bound in frames that stand for one another. -/
lemma assign (h : s.Alike π s') (hscope : s.scope.Alike π s'.scope) (name : String)
    (b : Binding ρ μ) (r : σ) :
    (Trace.ofRun (fun _ => [.bound s.scope.frame name b]) (Run.assign name b) s r).Alike π s s'
      (Trace.ofRun (fun _ => [.bound s'.scope.frame name b]) (Run.assign name b) s' r) :=
  of_step rfl ⟨rfl, Session.size_le_assign s name b⟩ ⟨rfl, Session.size_le_assign s' name b⟩
    (h.assign (List.forall₂_cons.1 hscope).1 name b)

/-- Declarations in scopes that are alike. -/
lemma declare (h : s.Alike π s') (hscope : s.scope.Alike π s'.scope) (signature : Signature)
    (body : List (Expr ρ)) (r : σ) :
    (Trace.ofRun (fun _ => []) (Run.declare signature body) s r).Alike π s s'
      (Trace.ofRun (fun _ => []) (Run.declare signature body) s' r) := by
  have hexec := Run.exec_declare (μ := μ) signature body s
  have hexec' := Run.exec_declare (μ := μ) signature body s'
  unfold Trace.ofRun
  cases hrepeated : signature.repeatedParameter? with
  | some name =>
    rw [hrepeated] at hexec hexec'
    rw [Run.play_of_done r hexec, Run.play_of_done r hexec']
    exact idle h _ _ r
  | none =>
    rw [hrepeated] at hexec hexec'
    rw [Run.play_of_done r hexec, Run.play_of_done r hexec']
    exact of_step rfl ⟨rfl, Nat.le_refl _⟩ ⟨rfl, Nat.le_refl _⟩ (h.declare hscope signature body)

end Alike

end Trace

/-! ## Plans -/

namespace Plan

variable [Roller σ]

/-- From sessions that are alike, in scopes that are alike, the run of a plan goes alike if the runs
of bodies do.

**Proof sketch.** By induction over the plan. Every step reads and changes frames of the scope, of the
scope of a registered function or fresh ones, and all of these stand for one another. -/
theorem alike_trace
    {body : List (Expr ρ) → (m : Mode) → Session ρ μ → σ → Trace ρ μ σ (m.Answer ρ μ)}
    (hbody : ∀ es m π u u' r, u.Alike π u' → u.scope.Alike π u'.scope →
      (body es m u r).Alike π u u' (body es m u' r)) {m : Mode} {p : Part} (x : Plan ρ μ m p α)
    {π : Renaming} {s s' : Session ρ μ} (h : s.Alike π s') (hscope : s.scope.Alike π s'.scope) (r : σ) :
    (x.trace body s r).Alike π s s' (x.trace body s' r) := by
  have hthen {γ δ : Type} {π : Renaming} {s s' : Session ρ μ} (hscope : s.scope.Alike π s'.scope)
      {t t' : Trace ρ μ σ γ} (ht : t.Alike π s s' t') {f : γ → Session ρ μ → σ → Trace ρ μ σ δ}
      (hf : ∀ c {π : Renaming} {u u'}, u.Alike π u' → u.scope.Alike π u'.scope → ∀ r,
        (f c u r).Alike π u u' (f c u' r)) : (t.andThen f).Alike π s s' (t'.andThen f) :=
    ht.andThen fun c π' u u' r hπ' hu hleft hright =>
      hf c hu (hleft.scope ▸ hright.scope ▸ hscope.extend hπ') r
  induction x generalizing π s s' r with
  | done a => exact .idle h _ _ r
  | calculate c next ih =>
    refine hthen hscope ?_ ih
    rw [h.limits]
    exact .idle h _ _ r
  | roll count sides next ih => exact hthen hscope (.roll h count sides r) ih
  | lookup name next ih => exact hthen hscope (.lookup h hscope name r) ih
  | @call m p α shape builtin pairs next hbuiltin hpairs ih =>
    refine hthen hscope ?_ ih
    have hfunction := h.functions shape
    unfold Trace.dispatch
    generalize s.registry.find? shape = f, s'.registry.find? shape = f' at hfunction
    cases hfunction with
    | none => exact .idle h _ _ r
    | some hf =>
      cases hf with
      | builtin b => exact hbuiltin b h hscope r
      | @user signature statements scope scope' hdeclared =>
        exact (hpairs signature h hscope r).andThen fun bs π' u u' r hπ' hu _ _ =>
          .activation hu (hdeclared.extend hπ') bs (hbody statements m) r
  | frame inner next hinner ih =>
    have hframe := hinner (h.enter s.scope s'.scope) (Session.Alike.enter_scope hscope) r
    exact hthen hscope (.inFrame _ _ hframe) ih
  | exact inner next hinner ih => exact hthen hscope (hinner h hscope r) ih
  | evaluate inner next hinner ih => exact hthen hscope (hinner h hscope r) ih
  | assign name b next ih => exact hthen hscope (.assign h hscope name b r) fun _ => ih
  | declare signature statements next ih =>
    exact hthen hscope (.declare h hscope signature statements r) fun _ => ih

variable [Mass μ]

/-- From sessions that are alike, in scopes that are alike, bodies run alike. -/
lemma alike_traceBody (fuel : Nat) (es : List (Expr ρ)) (m : Mode) (π : Renaming)
    (s s' : Session ρ μ) (r : σ) (h : s.Alike π s') (hscope : s.scope.Alike π s'.scope) :
    (traceBody fuel es m s r).Alike π s s' (traceBody fuel es m s' r) := by
  induction fuel generalizing es m π s s' r with
  | zero => exact .idle h _ _ r
  | succ fuel ih => exact alike_trace ih (ofBody es m) h hscope r

/-- From sessions that are alike, in scopes that are alike, plans run alike. -/
theorem alike_traced {m : Mode} {p : Part} (x : Plan ρ μ m p α) {π : Renaming} {s s' : Session ρ μ}
    (h : s.Alike π s') (hscope : s.scope.Alike π s'.scope) (r : σ) :
    (x.traced s r).Alike π s s' (x.traced s' r) := by
  unfold traced
  rw [h.fuel_eq]
  exact alike_trace (alike_traceBody s.fuel) x h hscope r

end Plan

/-! ## What a session is asked -/

/-- Sessions that are alike apart from the dice that they spent and the calls that are under way, in
scopes that are alike, answer alike. The frames of their global variables have to stand for one another,
since statements are run there. -/
theorem Request.alike_trace [Roller σ] [Mass μ] (q : Request ρ) {π : Renaming} {s s' : Session ρ μ}
    (h : s.renewed.Alike π s'.renewed) (hscope : s.scope.Alike π s'.scope) (hglobal : π 0 0) (r : σ) :
    (q.trace s r).Alike π s.renewed s'.renewed (q.trace s' r) := by
  cases q with
  | evaluate e => exact Plan.alike_traced e.plans.value h hscope r
  | distribution e =>
    have hlaw := Plan.alike_traced e.plans.law h hscope r
    refine hlaw.andThen (f := Trace.checked) (g := Trace.checked) fun l π' u u' r _ hu _ _ => ?_
    unfold Trace.checked
    rw [hu.limits]
    exact .idle hu _ _ r
  | run e =>
    have hstep := Plan.alike_traced ((e.plans : Plans ρ μ).step .sample)
      (h.inScope .global .global) (.cons hglobal .nil) r
    obtain ⟨π', hπ', hsession⟩ := hstep.session
    exact ⟨congrArg (Except.map _) hstep.result, hstep.roller, hstep.requests, ⟨rfl, hstep.left.grows⟩,
      ⟨rfl, hstep.right.grows⟩, π', hπ', hsession.inScope _ _⟩

end DiceCalculus
