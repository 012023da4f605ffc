import DiceCalculus.Proofs.LimitEffect.Demand
import Mathlib.Data.List.TakeWhile

set_option autoImplicit false
set_option relaxedAutoImplicit false

/-!
# Runs with and without limits

A run under limits goes in step with the run without limits until a limit is exceeded, and then fails
with the fault of that limit.

## Main definitions

* `Limits.lifted` — the same tolerance, and no limits.
* `Trace.InStep` — how a run under limits goes along with one without.

## Main results

* `Trace.InStep.andThen`, `Trace.InStep.entered` — runs in turn, and calls.
* `Plan.inStep_trace` — every plan, by induction over its steps.
* `Request.inStep_traceWith` — everything that a session can be asked.
-/

namespace DiceCalculus

variable {ρ μ : Type} [Scalar ρ] {σ α β : Type}

/-- The same tolerance, and no limits. -/
def Limits.lifted (limits : Limits μ) : Limits μ := ⟨none, none, none, limits.tolerance⟩

/-- A session under other limits. -/
def Session.withLimits (s : Session ρ μ) (limits : Limits μ) : Session ρ μ :=
  { s with limits := limits }

/-- Names are bound in the same way under other limits. -/
lemma Session.assignAll_withLimits (s : Session ρ μ) (limits : Limits μ)
    (bs : List (String × Binding ρ μ)) :
    (s.withLimits limits).assignAll bs = (s.assignAll bs).withLimits limits := by
  induction bs generalizing s with
  | nil => rfl
  | cons b bs ih => exact ih (s.assign b.1 b.2)

/-- A run that leaves a session under other limits. -/
def Trace.withLimits (t : Trace ρ μ σ α) (limits : Limits μ) : Trace ρ μ σ α :=
  { t with session := t.session.withLimits limits }

/-- The calls and the dice of a demand are those that a session has counted. -/
structure Demand.Meters (d : Demand) (s : Session ρ μ) : Prop where
  /-- The calls that are under way. -/
  underWay : d.underWay = s.depth
  /-- The dice that were rolled. -/
  rolls : d.rolls = s.spent

namespace Trace

/-- The session that a run leaves, from one without limits, counts what the log demands. -/
structure IsMetered (limits : Limits μ) (s : Session ρ μ) (t : Trace ρ μ σ α) : Prop where
  /-- There are still no limits. -/
  lifted : t.session.limits = limits.lifted
  /-- The calls and the dice of the log are counted. -/
  meters : ∀ d : Demand, d.Meters s → (d.after t.log).Meters t.session

/-- How a run under limits goes along with one without. The demand up to the beginning of the runs is
within the limits. -/
structure InStep (limits : Limits μ) (s : Session ρ μ) (t u : Trace ρ μ σ α) : Prop extends
    t.IsMetered limits s where
  /-- If no limit is exceeded, the runs are the same. -/
  same : ∀ d : Demand, d.Meters s → (d.after t.log).Fits limits → u = t.withLimits limits
  /-- If a limit is exceeded, the run under limits fails with the fault of the first. -/
  fails : ∀ d : Demand, d.Meters s → d.Fits limits → ∀ f, d.firstExcess? limits t.log = some f →
    u.result = .error (.fault f)

/-! ## Calls -/

section Calls

variable {limits : Limits μ} {s : Session ρ μ} {t u : Trace ρ μ σ α} {d : Demand}

/-- The demand when the body of a function is entered. -/
lemma meters_called (hd : d.Meters s) :
    (d.add (.called : Event ρ μ)).Meters (s.down s.scope) :=
  ⟨congrArg (· + 1) hd.underWay, hd.rolls⟩

/-- The demand when the body of a function is left. -/
lemma after_inCall (d : Demand) (scope : Scope) : d.after (inCall scope t).log =
    ((d.add (.called : Event ρ μ)).after t.log).add (.returned : Event ρ μ) :=
  Demand.after_append (d.add (.called : Event ρ μ)) t.log _

/-- The limit that is the first to be exceeded in a call. -/
lemma firstExcess?_inCall (hd : d.Fits limits) (scope : Scope) :
    d.firstExcess? limits (inCall scope t).log =
      (d.add (.called : Event ρ μ)).firstExcess? limits t.log := by
  show d.firstExcess? limits (.called :: (t.log ++ [.returned])) = _
  rw [Demand.firstExcess?_cons hd]
  exact Demand.firstExcess?_concat fun _ => rfl

/-- A call leaves as many calls under way as there were before. -/
lemma IsMetered.inCall (h : t.IsMetered limits (s.down s.scope)) :
    (Trace.inCall s.scope t).IsMetered limits s where
  lifted := h.lifted
  meters d hd := by
    rw [after_inCall]
    have ht := h.meters _ (meters_called hd)
    exact ⟨congrArg (· - 1) ht.underWay, ht.rolls⟩

/-- A call that the limit of the depth allows. -/
lemma InStep.inCall (hlimit : limits.maxDepth.filter (· ≤ s.depth) = none)
    (h : t.InStep limits (s.down s.scope) u) :
    (Trace.inCall s.scope t).InStep limits s (Trace.inCall s.scope u) where
  toIsMetered := h.toIsMetered.inCall
  same d hd hfits := by
    rw [after_inCall] at hfits
    rw [h.same _ (meters_called hd) hfits.of_add]
    rfl
  fails d hd hfits x hx := by
    rw [firstExcess?_inCall hfits] at hx
    refine h.fails _ (meters_called hd) ?_ x hx
    rw [← Demand.excess?_eq_none_iff (ρ := ρ), Demand.excess?_called hfits, hd.underWay, hlimit]
    rfl

/-- A call that the limit of the depth does not allow. -/
lemma InStep.of_tooDeep {limit : Nat} (hlimit : limits.maxDepth.filter (· ≤ s.depth) = some limit)
    (h : t.IsMetered limits (s.down s.scope)) (hu : u.result = .error (.fault (.tooDeep limit))) :
    (Trace.inCall s.scope t).InStep limits s u where
  toIsMetered := h.inCall
  same d hd hfits := by
    rw [after_inCall] at hfits
    have hcalled := hfits.of_add.of_after
    have hexcess := Demand.excess?_called (ρ := ρ) hcalled.of_add
    rw [Demand.excess?_eq_none_iff.2 hcalled, hd.underWay, hlimit] at hexcess
    cases hexcess
  fails d hd hfits x hx := by
    rw [firstExcess?_inCall hfits, ← Demand.excess?_or_firstExcess?, Demand.excess?_called hfits,
      hd.underWay, hlimit] at hx
    rw [hu, Option.some_inj.1 hx]

/-- The body of a function is entered under a limit of the depth unless that is reached. -/
theorem InStep.entered {body body' : Session ρ μ → σ → Trace ρ μ σ α}
    (hs : s.limits = limits.lifted) {r : σ}
    (h : (body (s.down s.scope) r).InStep limits (s.down s.scope)
      (body' ((s.down s.scope).withLimits limits) r)) :
    (Trace.entered body s r).InStep limits s (Trace.entered body' (s.withLimits limits) r) := by
  have ht : Trace.entered body s r = Trace.inCall s.scope (body (s.down s.scope) r) := by
    unfold Trace.entered
    rw [hs]
    rfl
  have hlimits : (s.withLimits limits).limits = limits := rfl
  have hdepth : (s.withLimits limits).depth = s.depth := rfl
  rw [ht]
  unfold Trace.entered
  rw [hlimits, hdepth]
  cases hlimit : limits.maxDepth.filter (· ≤ s.depth) with
  | none => exact inCall hlimit h
  | some n => exact of_tooDeep hlimit h.toIsMetered rfl

end Calls

/-! ## The other steps -/

namespace InStep

variable {limits : Limits μ} {s : Session ρ μ} {t u : Trace ρ μ σ α}

/-- A run that demands nothing is the same under limits. -/
lemma of_uncounted (hs : s.limits = limits.lifted)
    (hlog : ∀ e ∈ t.log, ∀ d : Demand, d.add e = d) (hlimits : t.session.limits = s.limits)
    (hdepth : t.session.depth = s.depth) (hspent : t.session.spent = s.spent)
    (hu : u = t.withLimits limits) : t.InStep limits s u where
  lifted := hlimits.trans hs
  meters d hd := by
    rw [Demand.after_of_uncounted hlog]
    exact ⟨hd.underWay.trans hdepth.symm, hd.rolls.trans hspent.symm⟩
  same _ _ _ := hu
  fails d _ hfits f hf := by
    rw [Demand.firstExcess?_of_uncounted hlog, Demand.excess?_eq_none_iff.2 hfits] at hf
    cases hf

/-- A run that does nothing. -/
lemma idle (hs : s.limits = limits.lifted) (x : Except (Stop ρ μ) α) (r : σ) :
    (⟨[], x, s, r⟩ : Trace ρ μ σ α).InStep limits s ⟨[], x, s.withLimits limits, r⟩ :=
  of_uncounted hs nofun rfl rfl rfl rfl

/-- Two runs in turn.

**Proof sketch.** If the first run stops, it is the whole on both sides. Otherwise the demand of the
first part is what the second one starts from (`Demand.after_append`). If the whole fits, so does
the first part, and both parts are the same in turn. If it does not, the first excess is in the
first part, which then fails, or behind it, and then the first part is the same and the second
fails. -/
theorem andThen (h : t.InStep limits s u) {f g : α → Session ρ μ → σ → Trace ρ μ σ β}
    (hf : ∀ a s r, s.limits = limits.lifted →
      (f a s r).InStep limits s (g a (s.withLimits limits) r)) :
    (t.andThen f).InStep limits s (u.andThen g) := by
  have hfails {x : Fault ρ μ} (hu : u.result = .error (.fault x)) :
      (u.andThen g).result = .error (.fault x) := by
    unfold Trace.andThen
    rw [hu]
  obtain ⟨log, e | a, s₁, r₁⟩ := t
  · refine ⟨⟨h.lifted, h.meters⟩, fun d hd hfits => ?_, fun d hd hfits x hx => ?_⟩
    · rw [h.same d hd hfits]
      rfl
    · exact hfails (h.fails d hd hfits x hx)
  · have hnext := hf a s₁ r₁ h.lifted
    show Trace.InStep limits s { f a s₁ r₁ with log := log ++ (f a s₁ r₁).log } _
    generalize f a s₁ r₁ = t' at hnext ⊢
    refine ⟨⟨hnext.lifted, fun d hd => ?_⟩, fun d hd hfits => ?_, fun d hd hfits x hx => ?_⟩
    · rw [Demand.after_append]
      exact hnext.meters _ (h.meters d hd)
    · rw [Demand.after_append] at hfits
      have hg := hnext.same _ (h.meters d hd) hfits
      rw [h.same d hd hfits.of_after]
      show ({ g a (s₁.withLimits limits) r₁ with
        log := log ++ (g a (s₁.withLimits limits) r₁).log } : Trace ρ μ σ β) = _
      rw [hg]
      rfl
    · rw [Demand.firstExcess?_append] at hx
      cases hlog : d.firstExcess? limits log with
      | some f =>
        rw [hlog] at hx
        exact hfails (h.fails d hd hfits x (hlog.trans hx))
      | none =>
        have hfits₁ := Demand.firstExcess?_eq_none_iff.1 hlog
        rw [hlog, Option.none_or] at hx
        rw [h.same d hd hfits₁]
        exact hnext.fails _ (h.meters d hd) hfits₁ x hx

/-- Statements that are run in a fresh frame. -/
lemma inFrame (s₀ : Session ρ μ) (hdepth : s₀.depth = s.depth) (hspent : s₀.spent = s.spent)
    (h : t.InStep limits s u) :
    (Trace.inFrame s₀ t).InStep limits s₀ (Trace.inFrame (s₀.withLimits limits) u) := by
  have hmeters {d : Demand} (hd : d.Meters s₀) : d.Meters s :=
    ⟨hd.underWay.trans hdepth, hd.rolls.trans hspent⟩
  have hafter (d : Demand) : d.after (Trace.inFrame s₀ t).log = d.after t.log :=
    Demand.after_append d t.log _
  refine ⟨⟨h.lifted, fun d hd => ?_⟩, fun d hd hfits => ?_, fun d hd hfits x hx => ?_⟩
  · rw [hafter]
    exact ⟨(h.meters d (hmeters hd)).underWay, (h.meters d (hmeters hd)).rolls⟩
  · rw [hafter] at hfits
    rw [h.same d (hmeters hd) hfits]
    rfl
  · refine h.fails d (hmeters hd) hfits x ?_
    rw [← hx]
    show _ = d.firstExcess? limits (.opened _ :: (t.log ++ [.closed _]))
    rw [Demand.firstExcess?_cons hfits]
    exact (Demand.firstExcess?_concat fun _ => rfl).symm

/-- An activation of a function. -/
lemma activation (scope : Scope) (bs : List (String × Binding ρ μ))
    {body body' : Session ρ μ → σ → Trace ρ μ σ α}
    (h : ∀ s r, s.limits = limits.lifted →
      (body s r).InStep limits s (body' (s.withLimits limits) r))
    (s : Session ρ μ) (hs : s.limits = limits.lifted) (r : σ) :
    (Trace.activation scope bs body s r).InStep limits s
      (Trace.activation scope bs body' (s.withLimits limits) r) := by
  refine inFrame (s := s.enter scope) s rfl rfl (andThen ?_ fun _ s r hs => entered hs (h _ r hs))
  have heq := Session.assignAll_eq (s.enter scope) bs
  refine of_uncounted hs (fun e he d => ?_) ?_ ?_ ?_ ?_
  · obtain ⟨b, -, rfl⟩ := List.mem_map.1 he
    rfl
  · exact Session.assignAll_limits ..
  · exact Session.assignAll_depth ..
  · show ((s.enter scope).assignAll bs).spent = _
    rw [heq]
  · show (⟨_, _, ((s.enter scope).withLimits limits).assignAll bs, r⟩ : Trace ρ μ σ Unit) = _
    rw [Session.assignAll_withLimits]
    rfl

/-- A calculation. -/
lemma calculate (c : Calculation ρ μ α) (hs : s.limits = limits.lifted) (r : σ) :
    (⟨(c.sizes.takeWhile (Limits.allows s.limits.maxOutcomes)).map .measured,
      (c.under s.limits).mapError .fault, s, r⟩ : Trace ρ μ σ α).InStep limits s
      ⟨(c.sizes.takeWhile (Limits.allows limits.maxOutcomes)).map .measured,
        (c.under limits).mapError .fault, s.withLimits limits, r⟩ := by
  have hall {limit : Option Nat} (h : c.sizes.findSome? (Limits.exceeded? limit) = none) :
      c.sizes.takeWhile (Limits.allows limit) = c.sizes := by
    rw [List.findSome?_eq_none_iff] at h
    exact List.takeWhile_eq_self_iff.2 fun n hn => Limits.allows_iff.2 (h n hn)
  have hlifted : c.sizes.findSome? (Limits.exceeded? s.limits.maxOutcomes) = none := by
    rw [hs]
    exact List.findSome?_eq_none_iff.2 fun _ _ => rfl
  rw [hall hlifted, Calculation.under_eq, Calculation.under_eq, hlifted]
  refine ⟨⟨hs, fun d hd => ?_⟩, fun d hd hfits => ?_, fun d hd hfits x hx => ?_⟩
  · obtain ⟨hunderWay, hrolls⟩ := d.after_measured (ρ := ρ) (μ := μ) c.sizes
    exact ⟨hunderWay.trans hd.underWay, hrolls.trans hd.rolls⟩
  · have hnone := Demand.firstExcess?_eq_none_iff.2 hfits
    rw [Demand.firstExcess?_measured hfits.of_after, Option.map_eq_none_iff] at hnone
    rw [hnone, hall hnone]
    rfl
  · rw [Demand.firstExcess?_measured hfits, Option.map_eq_some_iff] at hx
    obtain ⟨n, hn, rfl⟩ := hx
    rw [hn]
    rfl

/-- A statement that hands over its value. -/
lemma settle {t u : Trace ρ μ σ (Flow α)} (scope inner : Scope)
    (h : t.InStep limits (s.inScope inner) u) :
    (t.settle scope).InStep limits s (u.settle scope) where
  lifted := h.lifted
  meters d hd := by
    have ht := h.meters d ⟨hd.underWay, hd.rolls⟩
    exact ⟨ht.underWay, ht.rolls⟩
  same d hd hfits := by
    rw [h.same d ⟨hd.underWay, hd.rolls⟩ hfits]
    rfl
  fails d hd hfits x hx := by
    unfold Trace.settle
    rw [h.fails d ⟨hd.underWay, hd.rolls⟩ hfits x hx]
    rfl

variable [Roller σ]

/-- A computation that does not depend on the limits. -/
lemma ofRun {act : Run ρ μ α} {x : Except (Stop ρ μ) α} {s' : Session ρ μ}
    (hs : s.limits = limits.lifted) (h : act.exec s = .done (x, s'))
    (h' : act.exec (s.withLimits limits) = .done (x, s'.withLimits limits))
    (hlimits : s'.limits = s.limits) (hdepth : s'.depth = s.depth) (hspent : s'.spent = s.spent)
    (r : σ) : (Trace.ofRun (fun _ => []) act s r).InStep limits s
      (Trace.ofRun (fun _ => []) act (s.withLimits limits) r) := by
  unfold Trace.ofRun
  rw [Run.play_of_done r h, Run.play_of_done r h']
  cases x <;> exact of_uncounted hs nofun hlimits hdepth hspent rfl

/-- A request for dice. -/
lemma roll (hs : s.limits = limits.lifted) (count sides : Nat) (r : σ) :
    (Trace.ofRun (fun _ => [.rolled count sides]) (Run.roll count sides) s r).InStep limits s
      (Trace.ofRun (fun _ => [.rolled count sides]) (Run.roll count sides) (s.withLimits limits) r) := by
  have hallows : Limits.allows s.limits.maxRolls (s.spent + count) = true := by
    rw [hs]
    rfl
  have hplay := Run.play_roll r count sides (s.withLimits limits)
  change _ = if Limits.allows limits.maxRolls (s.spent + count) = true then _ else _ at hplay
  unfold Trace.ofRun
  rw [Run.play_roll, if_pos hallows, hplay]
  have hfirst {d : Demand} (hd : d.Meters s) (hfits : d.Fits limits) :
      d.firstExcess? limits [(.rolled count sides : Event ρ μ)] =
        (Limits.exceeded? limits.maxRolls (s.spent + count)).map fun _ => .tooManyRolls := by
    rw [Demand.firstExcess?_cons hfits, ← hd.rolls]
    exact Demand.excess?_rolled hfits count sides
  refine ⟨⟨hs, fun d hd => ?_⟩, fun d hd hfits => ?_, fun d hd hfits x hx => ?_⟩
  · exact ⟨hd.underWay, congrArg (· + count) hd.rolls⟩
  · have hnone := Demand.firstExcess?_eq_none_iff.2 hfits
    rw [hfirst hd hfits.of_after, Option.map_eq_none_iff, ← Limits.allows_iff] at hnone
    rw [if_pos hnone]
    rfl
  · rw [hfirst hd hfits, Option.map_eq_some_iff] at hx
    obtain ⟨n, hn, rfl⟩ := hx
    have hnot : ¬ Limits.allows limits.maxRolls (s.spent + count) = true := by
      rw [Limits.allows_iff, hn]
      exact nofun
    rw [if_neg hnot]

/-- A lookup. -/
lemma lookup (hs : s.limits = limits.lifted) (name : String) (r : σ) :
    (Trace.ofRun (fun _ => []) (Run.lookup name) s r).InStep limits s
      (Trace.ofRun (fun _ => []) (Run.lookup name) (s.withLimits limits) r) :=
  ofRun hs (Run.exec_lookup name s) (Run.exec_lookup name _) rfl rfl rfl r

/-- A declaration. -/
lemma declare (hs : s.limits = limits.lifted) (signature : Signature) (body : List (Expr ρ))
    (r : σ) : (Trace.ofRun (fun _ => []) (Run.declare signature body) s r).InStep limits s
      (Trace.ofRun (fun _ => []) (Run.declare signature body) (s.withLimits limits) r) := by
  have h := Run.exec_declare (μ := μ) signature body s
  have h' := Run.exec_declare signature body (s.withLimits limits)
  cases hrepeated : signature.repeatedParameter? with
  | none =>
    rw [hrepeated] at h h'
    exact ofRun hs h h' rfl rfl rfl r
  | some name =>
    rw [hrepeated] at h h'
    exact ofRun hs h h' rfl rfl rfl r

/-- A name that is bound. -/
lemma assign (hs : s.limits = limits.lifted) (name : String) (b : Binding ρ μ) (r : σ) :
    (Trace.ofRun (fun _ => [.bound s.scope.frame name b]) (Run.assign name b) s r).InStep limits s
      (Trace.ofRun (fun _ => [.bound s.scope.frame name b]) (Run.assign name b)
        (s.withLimits limits) r) :=
  of_uncounted hs (List.forall_mem_singleton.2 fun _ => rfl) rfl rfl rfl rfl

end InStep

end Trace

/-! ## Plans -/

namespace Plan

variable [Roller σ] {limits : Limits μ}

/-- Under limits, a plan goes in step with itself if the bodies do.

**Proof sketch.** By induction over the plan. -/
theorem inStep_trace
    {body : List (Expr ρ) → (m : Mode) → Session ρ μ → σ → Trace ρ μ σ (m.Answer ρ μ)}
    (h : ∀ es m s r, s.limits = limits.lifted →
      (body es m s r).InStep limits s (body es m (s.withLimits limits) r)) {m : Mode} {p : Part}
    (x : Plan ρ μ m p α) (s : Session ρ μ) (r : σ) (hs : s.limits = limits.lifted) :
    (x.trace body s r).InStep limits s (x.trace body (s.withLimits limits) r) := by
  induction x generalizing s r with
  | done a => exact .idle hs (.ok a) r
  | calculate c next ih => exact (Trace.InStep.calculate c hs r).andThen ih
  | roll count sides next ih => exact (Trace.InStep.roll hs count sides r).andThen ih
  | lookup name next ih => exact (Trace.InStep.lookup hs name r).andThen ih
  | @call m p α shape builtin pairs next hbuiltin hpairs ih =>
    refine Trace.InStep.andThen ?_ ih
    have hregistry : (s.withLimits limits).registry = s.registry := rfl
    unfold Trace.dispatch
    rw [hregistry]
    rcases s.registry.find? shape with _ | b | c
    · exact .idle hs _ r
    · exact hbuiltin b s r hs
    · exact (hpairs c.signature s r hs).andThen fun bs s r hs =>
        .activation c.scope bs (h c.body m) s hs r
  | frame inner next hinner ih =>
    have hframe := hinner (s.enter s.scope) r hs
    exact Trace.InStep.andThen (.inFrame (s := s.enter s.scope) s rfl rfl hframe) ih
  | exact inner next hinner ih => exact (hinner s r hs).andThen ih
  | evaluate inner next hinner ih => exact (hinner s r hs).andThen ih
  | assign name b next ih => exact (Trace.InStep.assign hs name b r).andThen fun _ => ih
  | declare signature statements next ih =>
    exact (Trace.InStep.declare hs signature statements r).andThen fun _ => ih

variable [Mass μ]

/-- Under limits, a body goes in step with itself. -/
lemma inStep_traceBody (fuel : Nat) (es : List (Expr ρ)) (m : Mode) (s : Session ρ μ) (r : σ)
    (hs : s.limits = limits.lifted) :
    (traceBody fuel es m s r).InStep limits s (traceBody fuel es m (s.withLimits limits) r) := by
  induction fuel generalizing es m s r with
  | zero => exact .idle hs _ r
  | succ fuel ih => exact inStep_trace ih (ofBody es m) s r hs

end Plan

/-- Under limits, a session that is asked something goes in step with itself, with the same fuel. -/
theorem Request.inStep_traceWith [Roller σ] [Mass μ] {limits : Limits μ} (fuel : Nat)
    (q : Request ρ) (s : Session ρ μ) (hs : s.limits = limits.lifted) (r : σ) :
    (q.traceWith (Plan.traceBody fuel) s r).InStep limits s.renewed
      (q.traceWith (Plan.traceBody fuel) (s.withLimits limits) r) := by
  have hbody := @Plan.inStep_traceBody ρ μ _ σ _ limits _ fuel
  cases q with
  | evaluate e => exact Plan.inStep_trace hbody e.plans.value s.renewed r hs
  | distribution e =>
    have hlaw := Plan.inStep_trace hbody e.plans.law s.renewed r hs
    refine hlaw.andThen (f := Trace.checked) (g := Trace.checked) fun l s r hs => ?_
    unfold Trace.checked
    rw [show s.limits.tolerance = limits.tolerance by rw [hs]; rfl]
    exact .idle hs _ r
  | run e =>
    exact .settle s.scope .global
      (Plan.inStep_trace hbody (e.plans.step .sample) (s.renewed.inScope .global) r hs)

end DiceCalculus
