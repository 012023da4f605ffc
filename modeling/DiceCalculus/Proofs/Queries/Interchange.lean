import DiceCalculus.Proofs.Interactions
import DiceCalculus.Proofs.Renaming.Runs

set_option autoImplicit false
set_option relaxedAutoImplicit false

/-!
# Sessions that cannot be told apart

A frame that is made in a block or an activation is left behind when the block or the activation has
ended, and no scope leads to it unless a function was declared there. A session with such frames cannot
be told apart from one without them: whatever is done with the two goes alike.

## Main definitions

* `Session.Unchanged` — a session that differs from an earlier one by further frames only.
* `Session.Interchangeable` — sessions in which everything within reach is the same.
* `Run.Agree` — the same results and rollers, with sessions that are related.

## Main results

* `Session.Interchangeable.unchanged` — further frames cannot be told.
* `Question.agree_play`, `Interaction.agree_perform`, `Operation.agree_perform` — questions to sessions
  that cannot be told apart, and interactions with them.
-/

namespace DiceCalculus

variable {ρ μ : Type} [Scalar ρ] {σ α : Type}

/-! ## Sessions -/

/-- A scope whose frames exist stands for itself. -/
lemma Frames.Contains.alike {fs : Frames ρ μ} {scope : Scope}
    (h : fs.Contains scope) : scope.Alike (fun i j => i = j ∧ i < fs.size) scope :=
  List.forall₂_same.2 fun i hi => ⟨rfl, h i hi⟩

namespace Session

/-- A session that differs from an earlier one by further frames only. -/
structure Unchanged (s t : Session ρ μ) : Prop where
  /-- Nothing but the frames differs. -/
  rest : t = { s with frames := t.frames }
  /-- No frame is removed. -/
  grows : s.frames.size ≤ t.frames.size
  /-- The frames that were there before bind what they bound. -/
  bindings : ∀ i < s.frames.size, ∀ name, t.frames.find? i name = s.frames.find? i name

/-- Sessions in which everything within reach is the same: the frames of one stand for frames of the
other, and so do the scopes and the frames of the global variables. -/
def Interchangeable (s s' : Session ρ μ) : Prop :=
  ∃ π : Renaming, s.Alike π s' ∧ s.scope.Alike π s'.scope ∧ π 0 0

variable {s s' t : Session ρ μ}

/-- No dice are spent and no calls are under way in either session. -/
lemma Unchanged.renewed (h : s.Unchanged t) : s.renewed.Unchanged t.renewed :=
  ⟨congrArg Session.renewed h.rest, h.grows, h.bindings⟩

/-- A session is interchangeable with itself if the frames of its scopes exist. -/
lemma IsWellScoped.interchangeable (hs : s.IsWellScoped) : s.Interchangeable s := by
  refine ⟨fun i j => i = j ∧ i < s.frames.size, ⟨rfl, rfl, rfl, fun shape => ?_, ?_, ?_, ?_⟩,
    hs.scope.alike, rfl, Nat.zero_lt_of_lt (hs.scope s.scope.frame List.mem_cons_self)⟩
  · rcases hf : s.registry.find? shape with _ | b | c
    · exact .none
    · exact .some (.builtin b)
    · exact .some (.user (hs.closures shape c hf).alike)
  · rintro i j ⟨rfl, hi⟩
    exact ⟨hi, hi⟩
  · rintro i j k l ⟨rfl, -⟩ ⟨rfl, -⟩
    rfl
  · rintro i j ⟨rfl, -⟩ name
    rfl

namespace Interchangeable

/-- Further frames cannot be told. -/
theorem unchanged (h : s.Interchangeable s') (ht : s'.Unchanged t) : s.Interchangeable t := by
  obtain ⟨π, halike, hscope, hglobal⟩ := h
  obtain ⟨hrest, hgrows, hbindings⟩ := ht
  generalize t.frames = frames at hrest hgrows hbindings
  subst hrest
  refine ⟨π, ⟨halike.limits, halike.spent, halike.depth, halike.functions, fun hij => ?_,
    halike.unique, fun hij name => ?_⟩, hscope, hglobal⟩
  · exact ⟨(halike.made hij).1, (halike.made hij).2.trans_le hgrows⟩
  · exact (hbindings _ (halike.made hij).2 name).trans (halike.bindings hij name)

/-- No dice are spent and no calls are under way in either session. -/
lemma renewed (h : s.Interchangeable s') : s.renewed.Interchangeable s'.renewed := by
  obtain ⟨π, halike, hscope, hglobal⟩ := h
  exact ⟨π, halike.renewed, hscope, hglobal⟩

/-- A global variable is bound in either session. -/
lemma bindGlobal (h : s.Interchangeable s') (name : String) (b : Binding ρ μ) :
    (s.bindGlobal name b).Interchangeable (s'.bindGlobal name b) := by
  obtain ⟨π, halike, hscope, hglobal⟩ := h
  have hbound := (halike.inScope .global .global).assign hglobal name b
  exact ⟨π, hbound.inScope s.scope s'.scope, hscope, hglobal⟩

end Interchangeable

end Session

/-! ## Outcomes -/

/-- Outcomes with the same result and the same roller, and sessions that are related. -/
structure Run.Agree (R : Session ρ μ → Session ρ μ → Prop) (o o' : α × Session ρ μ × σ) : Prop where
  /-- The results are the same. -/
  result : o'.1 = o.1
  /-- The rollers that are left are the same. -/
  roller : o'.2.2 = o.2.2
  /-- The sessions that are left are related. -/
  session : R o.2.1 o'.2.1

/-- Outcomes agree in a weaker sense too. -/
lemma Run.Agree.mono {R R' : Session ρ μ → Session ρ μ → Prop} {o o' : α × Session ρ μ × σ}
    (h : Run.Agree R o o') (hR : ∀ s s', R s s' → R' s s') : Run.Agree R' o o' :=
  ⟨h.result, h.roller, hR _ _ h.session⟩

/-- Runs that go alike, in scopes that are alike, leave sessions that cannot be told apart. -/
lemma Trace.Alike.agree {π : Renaming} {s s' : Session ρ μ} {t t' : Trace ρ μ σ α}
    (h : t.Alike π s s' t') (hscope : s.scope.Alike π s'.scope) (hglobal : π 0 0) :
    Run.Agree Session.Interchangeable t.outcome t'.outcome := by
  obtain ⟨π', hπ', hsession⟩ := h.session
  refine ⟨h.result, h.roller, π', hsession, ?_, hπ'.keeps hglobal⟩
  show t.session.scope.Alike π' t'.session.scope
  rw [h.left.scope, h.right.scope]
  exact hscope.extend hπ'

/-! ## Interactions -/

section Interactions

variable [Roller σ] [Mass μ] {s s' : Session ρ μ}

/-- What sessions are asked that can be told apart at most by what they have spent, they answer alike. -/
lemma Request.agree_perform (q : Request ρ) (h : s.renewed.Interchangeable s'.renewed) (r : σ) :
    Run.Agree Session.Interchangeable (q.perform.play s r) (q.perform.play s' r) := by
  obtain ⟨π, halike, hscope, hglobal⟩ := h
  rw [← q.outcome_trace, ← q.outcome_trace]
  exact (q.alike_trace halike hscope hglobal r).agree hscope hglobal

/-- Expressions answer alike in sessions that cannot be told apart, with any amount of fuel. -/
theorem Question.agree_play (q : Question) (fuel : Nat) (e : Expr ρ) (h : s.Interchangeable s') (r : σ) :
    Run.Agree Session.Interchangeable ((q.of (e.meaning fuel)).play s r)
      ((q.of (e.meaning fuel)).play s' r) := by
  obtain ⟨π, halike, hscope, hglobal⟩ := h
  rw [← q.outcome_trace, ← q.outcome_trace]
  have hbody := Plan.alike_traceBody (ρ := ρ) (μ := μ) (σ := σ) fuel
  exact (Plan.alike_trace hbody (q.plan e.plans) halike hscope r).agree hscope hglobal

/-- Interactions with sessions that cannot be told apart go alike. -/
theorem Interaction.agree_perform (i : Interaction ρ μ) (h : s.Interchangeable s') (r : σ) :
    Run.Agree Session.Interchangeable (i.perform.play s r) (i.perform.play s' r) := by
  rcases i with (q | ⟨name, b⟩) | ⟨q, e⟩
  · exact q.agree_perform h.renewed r
  · exact ⟨rfl, rfl, h.bindGlobal name b⟩
  · have hfuel : s'.fuel = s.fuel := h.elim fun _ h => h.1.fuel_eq
    show Run.Agree Session.Interchangeable ((e.ask q.of).play s r) ((e.ask q.of).play s' r)
    rw [q.play_ask, q.play_ask, hfuel]
    exact q.agree_play s.fuel e h r

/-- Operations heed neither the dice that are spent nor the calls that are under way: they go alike
with sessions that can be told apart by these alone. -/
theorem Operation.agree_perform (o : Operation ρ μ) (h : s.renewed.Interchangeable s'.renewed) (r : σ) :
    Run.Agree (fun t t' => t.renewed.Interchangeable t'.renewed)
      ((Interaction.operation o).perform.play s r) ((Interaction.operation o).perform.play s' r) := by
  cases o with
  | request q => exact (q.agree_perform h r).mono fun _ _ => .renewed
  | bindGlobal name b => exact ⟨rfl, rfl, h.bindGlobal name b⟩

end Interactions

end DiceCalculus
