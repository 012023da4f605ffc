import DiceCalculus.Proofs.Exact
import DiceCalculus.Proofs.Plan.Fuel
import DiceCalculus.Proofs.Plan.Questions
import DiceCalculus.Roller

set_option autoImplicit false
set_option relaxedAutoImplicit false

/-!
# Evaluation under a limit of the depth is total

How an expression is evaluated is said by equations: its meaning is assembled from those of its parts,
at the same depth, and of the statements of a body that a call enters, one deeper. Under a limit of the
depth the equations have a solution, and no other: a part is smaller, and a body is entered only below
the limit. Every run therefore ends, with a result or with a fault.

## Main definitions

* `Expr.assemble` — the meaning of an expression in terms of those of its parts and of bodies.
* `Expr.IsEvaluator` — meanings at all depths up to a limit that obey the equations.
* `Expr.Consults` — which meanings are consulted for which.

## Main results

* `Expr.wellFounded_consults` — by the calls that the limit leaves, and then by size, fewer and fewer.
* `Expr.assemble_congr` — of the meanings of expressions, those of the parts matter.
* `Expr.IsEvaluator.play_eq` — a solution of the equations is how expressions are evaluated.
* `depth_limit_makes_total` — the evaluation of everything that a session is asked ends.
-/

namespace DiceCalculus

variable {ρ μ : Type} [Scalar ρ] {σ α β : Type}

/-! ## Bodies below a limit -/

namespace Trace

/-- Two runs that are the same, and end where they began, at a depth under a limit. -/
structure Coincide (limit depth : Nat) (t u : Trace ρ μ σ α) : Prop where
  /-- The runs are the same. -/
  eq : t = u
  /-- They end where they began. -/
  settles : t.Settles limit depth

/-- What a run comes to says whether it settles. -/
lemma Settles.of_outcome_eq {limit depth : Nat} {t u : Trace ρ μ σ α} (h : t.Settles limit depth)
    (heq : t.outcome = u.outcome) : u.Settles limit depth := by
  obtain ⟨hresult, hrest⟩ := Prod.mk.inj heq
  obtain ⟨hsession, -⟩ := Prod.mk.inj hrest
  exact ⟨hsession ▸ h.session, fun hu => h.ends (hresult.trans hu)⟩

namespace Coincide

variable {limit depth : Nat} {s : Session ρ μ} {t u : Trace ρ μ σ α}

/-- A run that settles coincides with itself. -/
lemma refl (h : t.Settles limit depth) : t.Coincide limit depth t := ⟨rfl, h⟩

/-- Runs in turn. -/
lemma andThen (h : t.Coincide limit depth u) {f g : α → Session ρ μ → σ → Trace ρ μ σ β}
    (hf : ∀ a s r, s.IsAt limit depth → (f a s r).Coincide limit depth (g a s r)) :
    (t.andThen f).Coincide limit depth (u.andThen g) := by
  obtain ⟨rfl, hsettles⟩ := h
  refine ⟨?_, hsettles.andThen fun a s r hs => (hf a s r hs).settles⟩
  obtain ⟨log, _ | a, s, r⟩ := t
  · rfl
  · show ({ f a s r with log := log ++ (f a s r).log } : Trace ρ μ σ β) = _
    rw [(hf a s r hsettles.session).eq]
    rfl

/-- Runs in a fresh frame. -/
lemma inFrame (s : Session ρ μ) (h : t.Coincide limit depth u) :
    (Trace.inFrame s t).Coincide limit depth (Trace.inFrame s u) :=
  ⟨congrArg (Trace.inFrame s) h.eq, h.settles.inFrame s⟩

/-- The body of a function is entered below the limit only. -/
lemma entered {body body' : Session ρ μ → σ → Trace ρ μ σ α} {r : σ} (hs : s.IsAt limit depth)
    (h : depth < limit → ∀ s r, s.IsAt limit (depth + 1) →
      (body s r).Coincide limit (depth + 1) (body' s r)) :
    (Trace.entered body s r).Coincide limit depth (Trace.entered body' s r) := by
  refine ⟨?_, Settles.entered hs fun hdepth s r hs => (h hdepth s r hs).settles⟩
  unfold Trace.entered
  split
  · rfl
  · next hlimit =>
    rw [hs.limit] at hlimit
    have hdepth : depth < limit := by simpa [hs.depth] using hlimit
    rw [(h hdepth (s.down s.scope) r ⟨hs.limit, congrArg (· + 1) hs.depth⟩).eq]

/-- An activation of a function. -/
lemma activation (scope : Scope) (bs : List (String × Binding ρ μ))
    {body body' : Session ρ μ → σ → Trace ρ μ σ α} (hs : s.IsAt limit depth)
    (h : depth < limit → ∀ s r, s.IsAt limit (depth + 1) →
      (body s r).Coincide limit (depth + 1) (body' s r)) (r : σ) :
    (Trace.activation scope bs body s r).Coincide limit depth
      (Trace.activation scope bs body' s r) := by
  have hbound : ((s.enter scope).assignAll bs).IsAt limit depth := by
    refine ⟨?_, ?_⟩
    · rw [Session.assignAll_limits]
      exact hs.limit
    · rw [Session.assignAll_depth]
      exact hs.depth
  exact inFrame s ((refl (.of_ok hbound rfl)).andThen fun _ _ _ hs => entered hs h)

end Coincide

end Trace

namespace Plan

variable [Roller σ] {limit depth : Nat}

/-- Of the bodies of functions, a plan runs only those that are entered below the limit.

**Proof sketch.** By induction over the plan; at every step the session is at the depth at which the
plan began, so that a call enters its body at the next. -/
lemma trace_coincide
    {body body' : List (Expr ρ) → (m : Mode) → Session ρ μ → σ → Trace ρ μ σ (m.Answer ρ μ)}
    (h : depth < limit → ∀ es m s r, s.IsAt limit (depth + 1) →
      (body es m s r).Coincide limit (depth + 1) (body' es m s r)) {m : Mode} {p : Part}
    (x : Plan ρ μ m p α) (s : Session ρ μ) (r : σ) (hs : s.IsAt limit depth) :
    (x.trace body s r).Coincide limit depth (x.trace body' s r) := by
  induction x generalizing s r with
  | done a => exact .refl ⟨hs, nofun⟩
  | calculate c next ih =>
    refine Trace.Coincide.andThen (.refl ⟨hs, ?_⟩) ih
    exact Trace.Settles.ends_mapError _ (c.under s.limits) s r
  | roll count sides next ih => exact (Trace.Coincide.refl (.roll hs count sides r)).andThen ih
  | lookup name next ih => exact (Trace.Coincide.refl (.lookup hs name r)).andThen ih
  | @call m p α shape builtin pairs next hbuiltin hpairs ih =>
    refine Trace.Coincide.andThen ?_ ih
    unfold Trace.dispatch
    rcases s.registry.find? shape with _ | b | c
    · exact .refl ⟨hs, nofun⟩
    · exact hbuiltin b s r hs
    · exact (hpairs c.signature s r hs).andThen fun bs s r hs =>
        .activation c.scope bs hs (fun hdepth => h hdepth c.body m) r
  | frame inner next hinner ih =>
    exact (Trace.Coincide.inFrame s (hinner (s.enter s.scope) r ⟨hs.limit, hs.depth⟩)).andThen ih
  | exact inner next hinner ih => exact (hinner s r hs).andThen ih
  | evaluate inner next hinner ih => exact (hinner s r hs).andThen ih
  | assign name b next ih =>
    exact (Trace.Coincide.refl (.of_ok ⟨hs.limit, hs.depth⟩ rfl)).andThen fun _ => ih
  | declare signature statements next ih =>
    exact (Trace.Coincide.refl (.declare hs signature statements r)).andThen fun _ => ih

/-- A plan comes to the same if the bodies that are entered below the limit do. -/
lemma play_run_congr {enter enter' : Enter ρ μ}
    (h : depth < limit → ∀ es m s (r : σ), s.IsAt limit (depth + 1) →
      (enter es m).play s r = (enter' es m).play s r ∧
        (Trace.ofRun (fun _ => []) (enter' es m) s r).Settles limit (depth + 1))
    {m : Mode} {p : Part} (x : Plan ρ μ m p α) {s : Session ρ μ} (hs : s.IsAt limit depth) (r : σ) :
    (x.run enter).play s r = (x.run enter').play s r := by
  let body (enter : Enter ρ μ) (es : List (Expr ρ)) (m : Mode) (s : Session ρ μ) (r : σ) :
      Trace ρ μ σ (m.Answer ρ μ) := Trace.ofRun (fun _ => []) (enter es m) s r
  have hbody : depth < limit → ∀ es m s r, s.IsAt limit (depth + 1) →
      (body enter es m s r).Coincide limit (depth + 1) (body enter' es m s r) := by
    intro hdepth es m s r hs
    obtain ⟨hplay, hsettles⟩ := h hdepth es m s r hs
    have heq : body enter es m s r = body enter' es m s r := by
      show Trace.ofRun _ _ s r = Trace.ofRun _ _ s r
      unfold Trace.ofRun
      rw [hplay]
    exact ⟨heq, heq ▸ hsettles⟩
  rw [← outcome_trace (fun _ _ _ _ => rfl : ∀ es m s r, (body enter es m s r).outcome = _),
    ← outcome_trace (fun _ _ _ _ => rfl : ∀ es m s r, (body enter' es m s r).outcome = _),
    (trace_coincide hbody x s r hs).eq]

end Plan

/-! ## The equations of an evaluation -/

namespace Expr

variable [Mass μ]

/-- The meaning of an expression in terms of those of its parts, given how bodies are run. -/
def assemble (part : Expr ρ → Meaning ρ μ) (enter : Enter ρ μ) : Expr ρ → Meaning ρ μ
  | literal x => .literal x
  | binary op left right => .binary op (part left) (part right)
  | dice count sides => .dice (part count) (part sides)
  | sequence es => .sequence (es.map part)
  | var name => .var name
  | assign name e => .assign name (part e)
  | call shape arguments => .call enter shape (arguments.map part)
  | block es => .block (es.map part)
  | output e => .output (part e)
  | declare signature body => .declare signature body

/-- How bodies are run whose statements have given meanings. -/
def enterWith (statement : Expr ρ → Meaning ρ μ) : Enter ρ μ :=
  fun body m => Meaning.resultOf m (body.map statement)

/-- Meanings at all depths up to a limit that obey the equations of an evaluation: parts have their
meanings at the same depth, and the statements of bodies have theirs one deeper. -/
def IsEvaluator (limit : Nat) (ev : Nat → Expr ρ → Meaning ρ μ) : Prop :=
  ∀ depth ≤ limit, ∀ e, ev depth e = e.assemble (ev depth) (enterWith (ev (depth + 1)))

/-- For the meaning of an expression at a depth, those of its parts are consulted at the same depth,
and those of any expressions one deeper if that is within the limit. -/
def Consults (limit : Nat) (d d' : Nat × Expr ρ) : Prop :=
  d'.1 = d.1 ∧ d'.2 ∈ d.2.parts ∨ d'.1 = d.1 + 1 ∧ d'.1 ≤ limit

omit [Scalar ρ] in
/-- To consult meanings on and on comes to an end: what is left of the limit decreases, or it stays and
the size does. -/
theorem wellFounded_consults (limit : Nat) :
    WellFounded fun d' d : Nat × Expr ρ => Consults limit d d' := by
  refine Subrelation.wf (fun {d' d} h => ?_)
    (InvImage.wf (fun d : Nat × Expr ρ => (limit - d.1, sizeOf d.2)) (Prod.lex Nat.lt_wfRel Nat.lt_wfRel).wf)
  rcases h with ⟨hdepth, hpart⟩ | ⟨hdepth, hlimit⟩
  · exact Prod.lex_def.2 (.inr ⟨congrArg (limit - ·) hdepth, sizeOf_lt_of_mem_parts hpart⟩)
  · exact Prod.lex_def.2 (.inl (by show limit - d'.1 < limit - d.1; omega))

/-- Only the meanings of its parts matter for the meaning of an expression. -/
theorem assemble_congr {part part' : Expr ρ → Meaning ρ μ} (enter : Enter ρ μ) {e : Expr ρ}
    (h : ∀ x ∈ e.parts, part x = part' x) : e.assemble part enter = e.assemble part' enter := by
  cases e with
  | literal x => rfl
  | var name => rfl
  | declare signature body => rfl
  | binary op left right => rw [assemble, assemble, h left (by simp [parts]), h right (by simp [parts])]
  | dice count sides => rw [assemble, assemble, h count (by simp [parts]), h sides (by simp [parts])]
  | assign name e => rw [assemble, assemble, h e (by simp [parts])]
  | output e => rw [assemble, assemble, h e (by simp [parts])]
  | sequence es => exact congrArg Meaning.sequence (List.map_congr_left h)
  | block es => exact congrArg Meaning.block (List.map_congr_left h)
  | call shape arguments =>
    refine congrArg (Meaning.call enter shape) ?_
    refine congrArg₂ Slots.mk ?_ (List.map_congr_left fun g hg => congrArg (Prod.mk g.1) ?_)
    · exact List.map_congr_left fun x hx => h x (List.mem_append_left _ hx)
    · refine List.map_congr_left fun x hx => h x (List.mem_append_right _ ?_)
      exact List.mem_flatMap.2 ⟨g, hg, hx⟩

/-- The meaning of an expression is assembled from the meanings of its parts. -/
lemma denote_eq_assemble (enter : Enter ρ μ) (e : Expr ρ) :
    e.denote enter = e.assemble (denote enter) enter := by
  cases e with
  | sequence es => rw [denote, denoteAll_eq_map, assemble]
  | block es => rw [denote, denoteAll_eq_map, assemble]
  | call shape arguments => rw [denote_call, assemble]
  | _ => rw [denote, assemble]

namespace IsEvaluator

variable {limit depth : Nat} {ev : Nat → Expr ρ → Meaning ρ μ}

/-- The meanings with fuel for the calls that the limit leaves obey the equations. -/
lemma meaning (limit : Nat) :
    IsEvaluator limit fun depth => (Expr.meaning (limit + 1 - depth) : Expr ρ → Meaning ρ μ) := by
  intro depth hdepth e
  have hfuel : limit + 1 - depth = limit + 1 - (depth + 1) + 1 := by omega
  show e.meaning (limit + 1 - depth) = e.assemble (Expr.meaning (limit + 1 - depth)) _
  rw [hfuel]
  exact denote_eq_assemble _ e

/-- The meanings at a depth are the meanings of expressions given how bodies are run one deeper. -/
lemma eq_denote (h : IsEvaluator limit ev) (hdepth : depth ≤ limit) (e : Expr ρ) :
    ev depth e = e.denote (enterWith (ev (depth + 1))) := by
  induction e using induction_parts with
  | h e ih =>
    rw [h depth hdepth e, denote_eq_assemble]
    exact assemble_congr _ ih

/-- The bodies at a depth are run as plans. -/
lemma enterWith_eq (h : IsEvaluator limit ev) (hdepth : depth ≤ limit) (es : List (Expr ρ))
    (m : Mode) : enterWith (ev depth) es m = (Plan.ofBody es m).run (enterWith (ev (depth + 1))) := by
  rw [Plan.run_ofBody]
  exact congrArg (Meaning.resultOf m) (List.map_congr_left fun e _ => h.eq_denote hdepth e)

variable [Roller σ]

/-- A plan comes to what it comes to with fuel for the calls that the limit leaves.

**Proof sketch.** By induction over what is left of the limit. If nothing is left, no body is entered.
If something is, the bodies that are entered are themselves plans, one deeper. -/
lemma play_run_eq (h : IsEvaluator limit ev) {m : Mode} {p : Part} (x : Plan ρ μ m p α)
    (hdepth : depth ≤ limit) {s : Session ρ μ} (hs : s.IsAt limit depth) (r : σ) :
    (x.run (enterWith (ev (depth + 1)))).play s r =
      (x.run (Plan.enterBody (limit - depth))).play s r := by
  obtain ⟨left, hleft⟩ : ∃ left, left = limit - depth := ⟨_, rfl⟩
  induction left generalizing depth m p α x s r with
  | zero => exact Plan.play_run_congr (fun hlt => by omega) x hs r
  | succ left ih =>
    refine Plan.play_run_congr (fun hlt es m s r hs => ⟨?_, ?_⟩) x hs r
    · have hfuel : limit - depth = limit - (depth + 1) + 1 := by omega
      rw [h.enterWith_eq hlt, ih (Plan.ofBody es m) hlt hs r (by omega), hfuel,
        Plan.run_ofBody_enterBody]
    · exact (Plan.traceBody_settles hlt (by omega) es m s r hs).of_outcome_eq
        (Plan.outcome_traceBody (limit - depth) es m s r)

/-- A solution of the equations is how expressions are evaluated. -/
theorem play_eq (h : IsEvaluator limit ev) (hdepth : depth ≤ limit) (q : Question) (e : Expr ρ)
    {s : Session ρ μ} (hs : s.IsAt limit depth) (r : σ) :
    (q.of (ev depth e)).play s r = (e.ask q.of).play s r := by
  have hfuel : s.fuel = limit - depth := by
    rw [Session.fuel, hs.limit, ← hs.depth]
  rw [q.play_ask, hfuel, h.eq_denote hdepth, ← meaning_plans, ← q.run_plan,
    h.play_run_eq _ hdepth hs, q.run_plan, Plan.meaning_plans_enterBody]

end IsEvaluator

end Expr

/-! ## Everything that a session is asked -/

/-- Under a limit of the depth, the evaluation of everything that a session is asked ends, with a
result or a fault, whatever is registered and bound and whatever the dice show. For the evaluation is
given by equations: the meaning of an expression at a depth is assembled from those of its parts, which
are smaller, and from bodies whose statements have their meanings one deeper, if that is within the
limit. What consults what is well-founded, and the equations have a solution; and every solution gives
all answers of every expression at every depth up to the limit. -/
theorem depth_limit_makes_total [Roller σ] [Mass μ] (limit : Nat) :
    (∀ (q : Request ρ) (s : Session ρ μ) (r : σ), s.limits.maxDepth = some limit →
      (∃ a, (q.perform.play s r).1 = .ok a) ∨ ∃ f, (q.perform.play s r).1 = .error (.fault f)) ∧
    (∀ (e : Expr ρ) (part part' : Expr ρ → Meaning ρ μ) enter,
      (∀ x ∈ e.parts, part x = part' x) → e.assemble part enter = e.assemble part' enter) ∧
    (WellFounded fun d' d : Nat × Expr ρ => Expr.Consults limit d d') ∧
    (∃ ev : Nat → Expr ρ → Meaning ρ μ, Expr.IsEvaluator limit ev) ∧
    ∀ ev : Nat → Expr ρ → Meaning ρ μ, Expr.IsEvaluator limit ev → ∀ depth ≤ limit,
      ∀ (q : Question) (e : Expr ρ) (s : Session ρ μ) (r : σ), s.IsAt limit depth →
        (q.of (ev depth e)).play s r = (e.ask q.of).play s r := by
  refine ⟨fun q s r hs => ?_, fun e _ _ enter h => Expr.assemble_congr enter h,
    Expr.wellFounded_consults limit, ⟨_, Expr.IsEvaluator.meaning limit⟩,
    fun ev h depth hdepth q e s r hs => h.play_eq hdepth q e hs r⟩
  have hends : (q.perform.play s r).1 ≠ .error .outOfFuel := by
    rw [← q.outcome_trace]
    exact q.ends_trace hs r
  cases hresult : (q.perform.play s r).1 with
  | ok a => exact .inl ⟨a, rfl⟩
  | error e =>
    cases e with
    | fault f => exact .inr ⟨f, rfl⟩
    | outOfFuel => exact absurd hresult hends

/-- Two functions call each other without end, and one of them declares the other anew on the way.
Under a limit of three calls the evaluation ends with the fault that they are too many, and so does
that by any solution of the equations. -/
theorem depth_limit_makes_total_mutual :
    let f : Signature := ⟨"f", .ofList []⟩
    let g : Signature := ⟨"g", .ofList []⟩
    let call (name : String) : Expr (WithBot ℚ) := .ofCall name (.ofList [])
    let e : Expr (WithBot ℚ) :=
      .block [.declare f [.declare g [.output (call "f")], .output (call "g")], .output (call "f")]
    let s : Session (WithBot ℚ) ℚ := .start ⟨none, some 3, none, 0⟩
    let r : Stepper := ⟨1, 1⟩
    s.limits.maxDepth = some 3 ∧ (Session.evaluate e |>.play s r).1 = .error (.fault (.tooDeep 3)) ∧
      ((∃ a, (Session.evaluate e |>.play s r).1 = .ok a) ∨
        ∃ f, (Session.evaluate e |>.play s r).1 = .error (.fault f)) ∧
      ∃ ev : Nat → Expr (WithBot ℚ) → Meaning (WithBot ℚ) ℚ, Expr.IsEvaluator 3 ev ∧
        s.IsAt 3 0 ∧ ((ev 0 e).value.play s r).1 = .error (.fault (.tooDeep 3)) := by
  intro f g call e s r
  obtain ⟨hends, -, -, ⟨ev, hev⟩, hunique⟩ :=
    depth_limit_makes_total (ρ := WithBot ℚ) (μ := ℚ) (σ := Stepper) 3
  have htooDeep {x : Except (Stop (WithBot ℚ) ℚ) (Value (WithBot ℚ) ℚ)}
      (h : (match x with
        | .error (.fault (.tooDeep limit)) => some limit
        | _ => none) = some 3) : x = .error (.fault (.tooDeep 3)) := by
    split at h
    · rw [Option.some_inj.1 h]
    · cases h
  have hresult : (Session.evaluate e |>.play s r).1 = .error (.fault (.tooDeep 3)) :=
    htooDeep (by decide +kernel)
  have hs : s.IsAt 3 0 := ⟨rfl, rfl⟩
  have hvalue : (e.value.play s r).1 = .error (.fault (.tooDeep 3)) := htooDeep (by decide +kernel)
  have heq := hunique ev hev 0 (Nat.zero_le 3) .value e s r hs
  exact ⟨rfl, hresult, hends (.evaluate e) s r rfl, ev, hev, hs, (congrArg Prod.fst heq).trans hvalue⟩

end DiceCalculus
