import DiceCalculus.Proofs.Plan.Trace

set_option autoImplicit false
set_option relaxedAutoImplicit false

/-!
# Fuel

Fuel bounds the number of calls that are under way at once, and a run that does not use it up does
not depend on it. Under a limit of the depth it is not used up, since no more calls are entered than
the limit allows, and there is fuel for all of them.

## Main definitions

* `Trace.Ends` — a run that does not use up the fuel.
* `Trace.Agrees` — a run is the same as another unless that uses up the fuel.
* `Trace.Settles` — a run that ends where it began, at a depth under a limit.

## Main results

* `Plan.traceBody_agrees` — more fuel changes no run that ends.
* `Plan.traced_settles` — under a limit of the depth every run ends.
* `Request.traceWith_agrees`, `Request.ends_trace` — the same for everything a session is asked.
-/

namespace DiceCalculus

variable {ρ μ : Type} [Scalar ρ] {σ α β : Type}

namespace Trace

/-- A run that does not use up the fuel. -/
def Ends (t : Trace ρ μ σ α) : Prop := t.result ≠ .error .outOfFuel

/-- A run with a result ends. -/
lemma Ends.of_ok {t : Trace ρ μ σ α} {a : α} (h : t.result = .ok a) : t.Ends := by
  intro he
  cases h.symm.trans he

/-- A part of a run that ends does so too. -/
lemma Ends.of_andThen {t : Trace ρ μ σ α} {f : α → Session ρ μ → σ → Trace ρ μ σ β}
    (h : (t.andThen f).Ends) : t.Ends := by
  intro hresult
  rcases t with ⟨log, e | a, s, r⟩
  · obtain rfl : e = .outOfFuel := Except.error.inj hresult
    exact h rfl
  · cases hresult

/-! ## More fuel -/

/-- A run is the same as another unless that uses up the fuel. -/
def Agrees (t u : Trace ρ μ σ α) : Prop := t.Ends → u = t

namespace Agrees

variable {t u : Trace ρ μ σ α}

/-- A run is the same as itself. -/
lemma refl (t : Trace ρ μ σ α) : t.Agrees t := fun _ => rfl

/-- Runs in turn. -/
lemma andThen (h : t.Agrees u) {f g : α → Session ρ μ → σ → Trace ρ μ σ β}
    (hf : ∀ a s r, (f a s r).Agrees (g a s r)) : (t.andThen f).Agrees (u.andThen g) := by
  intro hends
  obtain rfl := h hends.of_andThen
  rcases u with ⟨log, _ | a, s, r⟩
  · rfl
  · have hnext : g a s r = f a s r := hf a s r hends
    show ({ g a s r with log := log ++ (g a s r).log } : Trace ρ μ σ β) = _
    rw [hnext]
    rfl

/-- Runs in a fresh frame. -/
lemma inFrame (s : Session ρ μ) (h : t.Agrees u) :
    (Trace.inFrame s t).Agrees (Trace.inFrame s u) := fun hends => by rw [h hends]

/-- The bodies of a function. -/
lemma entered {body body' : Session ρ μ → σ → Trace ρ μ σ α}
    (h : ∀ s r, (body s r).Agrees (body' s r)) (s : Session ρ μ) (r : σ) :
    (Trace.entered body s r).Agrees (Trace.entered body' s r) := by
  unfold Trace.entered
  split
  · exact refl _
  · intro hends
    have hbody : body' (s.down s.scope) r = body (s.down s.scope) r := h _ _ hends
    rw [hbody]

/-- The activations of a function. -/
lemma activation (scope : Scope) (bs : List (String × Binding ρ μ))
    {body body' : Session ρ μ → σ → Trace ρ μ σ α} (h : ∀ s r, (body s r).Agrees (body' s r))
    (s : Session ρ μ) (r : σ) :
    (Trace.activation scope bs body s r).Agrees (Trace.activation scope bs body' s r) :=
  inFrame s ((refl _).andThen fun _ => entered h)

end Agrees

end Trace

namespace Plan

variable [Roller σ]

/-- The trace of a plan is the same with bodies whose runs are the same unless they use up the
fuel. -/
lemma trace_agrees
    {body body' : List (Expr ρ) → (m : Mode) → Session ρ μ → σ → Trace ρ μ σ (m.Answer ρ μ)}
    (h : ∀ es m s r, (body es m s r).Agrees (body' es m s r)) {m : Mode} {p : Part}
    (x : Plan ρ μ m p α) (s : Session ρ μ) (r : σ) :
    (x.trace body s r).Agrees (x.trace body' s r) := by
  induction x generalizing s r with
  | done a => exact .refl _
  | calculate c next ih => exact (Trace.Agrees.refl _).andThen ih
  | roll count sides next ih => exact (Trace.Agrees.refl _).andThen ih
  | lookup name next ih => exact (Trace.Agrees.refl _).andThen ih
  | @call m p α shape builtin pairs next hbuiltin hpairs ih =>
    refine Trace.Agrees.andThen ?_ ih
    unfold Trace.dispatch
    rcases s.registry.find? shape with _ | b | c
    · exact .refl _
    · exact hbuiltin b s r
    · exact (hpairs c.signature s r).andThen fun bs => .activation c.scope bs (h c.body m)
  | frame inner next hinner ih => exact (Trace.Agrees.inFrame s (hinner _ r)).andThen ih
  | exact inner next hinner ih => exact (hinner s r).andThen ih
  | evaluate inner next hinner ih => exact (hinner s r).andThen ih
  | assign name b next ih => exact (Trace.Agrees.refl _).andThen fun _ => ih
  | declare signature statements next ih => exact (Trace.Agrees.refl _).andThen fun _ => ih

variable [Mass μ]

/-- More fuel changes no run that ends. -/
theorem traceBody_agrees {fuel fuel' : Nat} (h : fuel ≤ fuel') (es : List (Expr ρ)) (m : Mode)
    (s : Session ρ μ) (r : σ) : (traceBody fuel es m s r).Agrees (traceBody fuel' es m s r) := by
  induction fuel generalizing fuel' es m s r with
  | zero => exact fun hends => absurd rfl hends
  | succ fuel ih =>
    obtain ⟨fuel', rfl⟩ : ∃ n, fuel' = n + 1 := ⟨fuel' - 1, by omega⟩
    exact trace_agrees (ih (Nat.le_of_succ_le_succ h)) (ofBody es m) s r

end Plan

/-! ## Enough fuel -/

/-- A session at a depth under a limit. -/
structure Session.IsAt (limit depth : Nat) (s : Session ρ μ) : Prop where
  /-- The limit of the depth. -/
  limit : s.limits.maxDepth = some limit
  /-- The number of calls under way. -/
  depth : s.depth = depth

namespace Trace

/-- A run that ends, at the depth and under the limit at which it began. -/
structure Settles (limit depth : Nat) (t : Trace ρ μ σ α) : Prop where
  /-- The session that is left is at the same depth. -/
  session : t.session.IsAt limit depth
  /-- The fuel is not used up. -/
  ends : t.Ends

namespace Settles

variable {limit depth : Nat} {t : Trace ρ μ σ α} {s : Session ρ μ}

/-- A fault is no lack of fuel. -/
lemma ends_mapError (log : List (Event ρ μ)) (x : Except (Fault ρ μ) α) (s : Session ρ μ)
    (r : σ) : (⟨log, x.mapError .fault, s, r⟩ : Trace ρ μ σ α).Ends := by
  cases x <;> exact nofun

/-- A run with a result. -/
lemma of_ok {a : α} (hs : t.session.IsAt limit depth) (h : t.result = .ok a) :
    t.Settles limit depth := ⟨hs, .of_ok h⟩

/-- Runs in turn. -/
lemma andThen (h : t.Settles limit depth) {f : α → Session ρ μ → σ → Trace ρ μ σ β}
    (hf : ∀ a s r, s.IsAt limit depth → (f a s r).Settles limit depth) :
    (t.andThen f).Settles limit depth := by
  rcases t with ⟨log, e | a, s, r⟩
  · refine ⟨h.session, fun he => h.ends ?_⟩
    obtain rfl : e = .outOfFuel := Except.error.inj he
    rfl
  · have hnext := hf a s r h.session
    exact ⟨hnext.session, hnext.ends⟩

/-- Runs in a fresh frame. -/
lemma inFrame (s : Session ρ μ) (h : t.Settles limit depth) :
    (Trace.inFrame s t).Settles limit depth := ⟨⟨h.session.limit, h.session.depth⟩, h.ends⟩

/-- The body of a function is entered below the limit only. -/
lemma entered {body : Session ρ μ → σ → Trace ρ μ σ α} {r : σ} (hs : s.IsAt limit depth)
    (h : depth < limit → ∀ s r, s.IsAt limit (depth + 1) → (body s r).Settles limit (depth + 1)) :
    (Trace.entered body s r).Settles limit depth := by
  unfold Trace.entered
  rw [hs.limit]
  split
  · exact ⟨hs, nofun⟩
  · next hlimit =>
    have hdepth : depth < limit := by simpa [hs.depth] using hlimit
    have hdown : (s.down s.scope).IsAt limit (depth + 1) := ⟨hs.limit, congrArg (· + 1) hs.depth⟩
    have hbody := h hdepth _ r hdown
    refine ⟨⟨hbody.session.limit, ?_⟩, hbody.ends⟩
    show (body (s.down s.scope) r).session.depth - 1 = depth
    rw [hbody.session.depth, Nat.add_sub_cancel]

/-- An activation of a function. -/
lemma activation (scope : Scope) (bs : List (String × Binding ρ μ))
    {body : Session ρ μ → σ → Trace ρ μ σ α} (hs : s.IsAt limit depth)
    (h : depth < limit → ∀ s r, s.IsAt limit (depth + 1) → (body s r).Settles limit (depth + 1))
    (r : σ) : (Trace.activation scope bs body s r).Settles limit depth := by
  have hbound : ((s.enter scope).assignAll bs).IsAt limit depth := by
    refine ⟨?_, ?_⟩
    · rw [Session.assignAll_limits]
      exact hs.limit
    · rw [Session.assignAll_depth]
      exact hs.depth
  exact inFrame s ((of_ok hbound rfl).andThen fun _ _ _ hs => entered hs h)

variable [Roller σ]

/-- A request for dice. -/
lemma roll (hs : s.IsAt limit depth) (count sides : Nat) (r : σ) :
    (Trace.ofRun (fun _ => [.rolled count sides]) (Run.roll count sides) s r).Settles limit depth := by
  unfold Trace.ofRun
  rw [Run.play_roll]
  split <;> exact ⟨⟨hs.limit, hs.depth⟩, nofun⟩

/-- A lookup. -/
lemma lookup (hs : s.IsAt limit depth) (name : String) (r : σ) :
    (Trace.ofRun (fun _ => []) (Run.lookup name) s r).Settles limit depth := by
  unfold Trace.ofRun
  rw [Run.play_of_done r (Run.exec_lookup name s)]
  cases s.frames.lookup? s.scope name <;> exact ⟨hs, nofun⟩

/-- A declaration. -/
lemma declare (hs : s.IsAt limit depth) (signature : Signature) (body : List (Expr ρ)) (r : σ) :
    (Trace.ofRun (fun _ => []) (Run.declare signature body) s r).Settles limit depth := by
  have hexec := Run.exec_declare (μ := μ) signature body s
  unfold Trace.ofRun
  split at hexec <;> rw [Run.play_of_done r hexec] <;> exact ⟨⟨hs.limit, hs.depth⟩, nofun⟩

end Settles

end Trace

namespace Plan

variable [Roller σ] {limit depth : Nat}

/-- The run of a plan ends if the runs of the bodies that are entered below the limit do. -/
lemma trace_settles
    {body : List (Expr ρ) → (m : Mode) → Session ρ μ → σ → Trace ρ μ σ (m.Answer ρ μ)}
    (h : depth < limit → ∀ es m s r, s.IsAt limit (depth + 1) →
      (body es m s r).Settles limit (depth + 1)) {m : Mode} {p : Part} (x : Plan ρ μ m p α)
    (s : Session ρ μ) (r : σ) (hs : s.IsAt limit depth) : (x.trace body s r).Settles limit depth := by
  induction x generalizing s r with
  | done a => exact ⟨hs, nofun⟩
  | calculate c next ih =>
    refine Trace.Settles.andThen ⟨hs, ?_⟩ ih
    exact Trace.Settles.ends_mapError _ (c.under s.limits) s r
  | roll count sides next ih => exact (Trace.Settles.roll hs count sides r).andThen ih
  | lookup name next ih => exact (Trace.Settles.lookup hs name r).andThen ih
  | @call m p α shape builtin pairs next hbuiltin hpairs ih =>
    refine Trace.Settles.andThen ?_ ih
    unfold Trace.dispatch
    rcases s.registry.find? shape with _ | b | c
    · exact ⟨hs, nofun⟩
    · exact hbuiltin b s r hs
    · exact (hpairs c.signature s r hs).andThen fun bs s r hs =>
        .activation c.scope bs hs (fun hdepth => h hdepth c.body m) r
  | frame inner next hinner ih =>
    exact (Trace.Settles.inFrame s (hinner (s.enter s.scope) r ⟨hs.limit, hs.depth⟩)).andThen ih
  | exact inner next hinner ih => exact (hinner s r hs).andThen ih
  | evaluate inner next hinner ih => exact (hinner s r hs).andThen ih
  | assign name b next ih =>
    exact (Trace.Settles.of_ok ⟨hs.limit, hs.depth⟩ rfl).andThen fun _ => ih
  | declare signature statements next ih =>
    exact (Trace.Settles.declare hs signature statements r).andThen fun _ => ih

variable [Mass μ]

/-- The run of a body that is entered below the limit ends if there is fuel for the calls that the
limit leaves. -/
lemma traceBody_settles {fuel : Nat} (hdepth : depth < limit) (hfuel : limit ≤ fuel + depth)
    (es : List (Expr ρ)) (m : Mode) (s : Session ρ μ) (r : σ) (hs : s.IsAt limit (depth + 1)) :
    (traceBody fuel es m s r).Settles limit (depth + 1) := by
  induction fuel generalizing depth es m s r with
  | zero => omega
  | succ fuel ih =>
    exact trace_settles (fun hdepth => ih hdepth (by omega)) (ofBody es m) s r hs

/-- Under a limit of the depth every run ends. -/
theorem traced_settles {m : Mode} {p : Part} (x : Plan ρ μ m p α) {s : Session ρ μ}
    (hs : s.IsAt limit depth) (r : σ) : (x.traced s r).Settles limit depth := by
  have hfuel : limit ≤ s.fuel + depth := by
    rw [Session.fuel, hs.limit, ← hs.depth]
    show limit ≤ limit - s.depth + s.depth
    omega
  exact trace_settles (fun hdepth => traceBody_settles hdepth hfuel) x s r hs

end Plan

/-! ## What a session is asked -/

namespace Trace

/-- A statement that hands over its value ends if it did so before. -/
lemma ends_settle_iff {t : Trace ρ μ σ (Flow α)} (scope : Scope) :
    (t.settle scope).Ends ↔ t.Ends := by
  unfold Ends settle
  obtain ⟨log, _ | flow, s, r⟩ := t
  · simp [Except.map]
  · simp [Except.map]

end Trace

namespace Request

variable [Roller σ] [Mass μ]

/-- More fuel changes no answer of a session. -/
theorem traceWith_agrees {fuel fuel' : Nat} (h : fuel ≤ fuel') (q : Request ρ) (s : Session ρ μ)
    (r : σ) : (q.traceWith (Plan.traceBody fuel) s r).Agrees
      (q.traceWith (Plan.traceBody fuel') s r) := by
  have hbody := Plan.traceBody_agrees (ρ := ρ) (μ := μ) (σ := σ) h
  cases q with
  | evaluate e => exact Plan.trace_agrees hbody e.plans.value s.renewed r
  | distribution e =>
    have hlaw := Plan.trace_agrees hbody e.plans.law s.renewed r
    exact hlaw.andThen (f := Trace.checked) (g := Trace.checked) fun _ _ _ => .refl _
  | run e =>
    intro hends
    have hstep := Plan.trace_agrees hbody (e.plans.step .sample) (s.renewed.inScope .global) r
      ((Trace.ends_settle_iff _).1 hends)
    exact congrArg (Trace.settle s.scope) hstep

/-- Under a limit of the depth, a session does not use up the fuel. -/
theorem ends_trace (q : Request ρ) {s : Session ρ μ} {limit : Nat}
    (hs : s.limits.maxDepth = some limit) (r : σ) : (q.trace s r : Trace ρ μ σ _).Ends := by
  have hrenewed : s.renewed.IsAt limit 0 := ⟨hs, rfl⟩
  cases q with
  | evaluate e => exact (Plan.traced_settles e.plans.value hrenewed r).ends
  | distribution e =>
    have hlaw := Plan.traced_settles e.plans.law hrenewed r
    refine (hlaw.andThen fun l s r hs => ⟨hs, ?_⟩).ends
    unfold Trace.Ends Trace.checked Session.checked
    split <;> exact nofun
  | run e =>
    have hglobal : (s.renewed.inScope .global).IsAt limit 0 := ⟨hs, rfl⟩
    exact (Trace.ends_settle_iff _).2 (Plan.traced_settles (e.plans.step .sample) hglobal r).ends

end Request

end DiceCalculus
