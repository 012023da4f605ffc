import DiceCalculus.Proofs.Exact
import DiceCalculus.Proofs.FrameEffect.Links
import DiceCalculus.Roller

set_option autoImplicit false
set_option relaxedAutoImplicit false

/-!
# The effect of an evaluation on frames

An expression that is evaluated binds no variable that was there before. A statement that is run
binds one at most: an assignment, if its right side succeeds, binds its name in the frame in which it
stands. A frame is therefore not changed any more once the block or the activation for which it was
made has ended, whatever functions keep it in their scopes.

## Main definitions

* `Session.Keeps` — the frames of a session are in a later one as they were.
* `Operation`, `Session.history` — what is done with a session, and what happens when it is done.

## Main results

* `Plan.keeps_traced`, `Expr.isTidy_step` — expressions and all statements but assignments keep the
  frames.
* `Expr.step_assign` — what an assignment does to them.
* `Session.isTidy_history` — whatever is done with a session in turn.
* `evaluation_keeps_frames` — the three together.
-/

namespace DiceCalculus

variable {ρ μ : Type} [Scalar ρ] {σ α β : Type}

/-! ## Frames that are kept -/

/-- The frames of a session have the same frames around them in a later one. -/
def Session.KeepsParents (s t : Session ρ μ) : Prop :=
  ∀ outer, s.IsLinked outer → ∃ outer', (∀ i < s.frames.size, outer' i = outer i) ∧ t.IsLinked outer'

/-- The frames of a session are in a later one as they were. -/
structure Session.Keeps (s t : Session ρ μ) : Prop where
  /-- Their variables are the same and hold the same. -/
  bindings : ∀ i < s.frames.size, t.frames.frame? i = s.frames.frame? i
  /-- The frames around them are the same. -/
  parents : s.KeepsParents t

namespace Trace

variable {p : Part} {s : Session ρ μ} {t : Trace ρ μ σ α}

/-- A tidy run keeps the frames in which it is not run, and all of them if it is that of an
expression. -/
lemma IsTidy.frame?_eq (h : t.IsTidy p s) {i : Nat} (hi : i < s.frames.size)
    (hp : p = .statement → i ≠ s.scope.frame) : t.session.frames.frame? i = s.frames.frame? i := by
  rw [h.frames]
  refine Frames.frame?_replay hi fun name b hb => ?_
  rcases h.bound i name b hb with hle | ⟨hp', hi'⟩
  · omega
  · exact hp hp' hi'

end Trace

namespace Plan

variable [Roller σ] [Mass μ]

/-- The frames around the frames of a session stay as they are. -/
lemma keepsParents_traced {m : Mode} {p : Part} (x : Plan ρ μ m p α) (s : Session ρ μ) (r : σ) :
    s.KeepsParents (x.traced s r).session := fun _ h => (links_traced x h r).linked

/-- A plan whose run is that of an expression keeps the frames. -/
lemma keeps_of_isTidy {m : Mode} {p : Part} {x : Plan ρ μ m p α} {s : Session ρ μ} {r : σ}
    (h : (x.traced s r).IsTidy .expression s) : s.Keeps (x.traced s r).session :=
  ⟨fun _ hi => h.frame?_eq hi nofun, x.keepsParents_traced s r⟩

/-- An expression keeps the frames. -/
theorem keeps_traced {m : Mode} (x : Plan ρ μ m .expression α) (s : Session ρ μ) (r : σ) :
    s.Keeps (x.traced s r).session := keeps_of_isTidy (isTidy_traced x s r)

/-- The session that an answer of an expression leaves is that of its trace. -/
lemma session_traced {m : Mode} {p : Part} {e : Expr ρ} {x : Plan ρ μ m p α}
    {f : Meaning ρ μ → Run ρ μ α}
    (h : ∀ enter, x.run enter = f (e.plans.meaning enter)) (s : Session ρ μ) (r : σ) :
    ((e.ask f).play s r).2.1 = (x.traced s r).session :=
  congrArg (·.2.1) (outcome_traced h s r).symm

end Plan

/-! ## Statements -/

namespace Expr

variable [Roller σ] [Mass μ]

/-- All statements but assignments are run as expressions are. -/
theorem isTidy_step {e : Expr ρ} (he : ∀ name x, e ≠ .assign name x) (m : Mode) (s : Session ρ μ)
    (r : σ) : (((e.plans : Plans ρ μ).step m).traced s r).IsTidy .expression s := by
  have hevaluate {β γ : Type} (x : Plan ρ μ m .expression β) (f : β → γ) :
      ((Plan.evaluate x fun b => .done (f b)).traced s r).IsTidy .expression s :=
    (Plan.isTidy_traced x s r).andThen fun _ _ => .idle _ _ _ _
  have hviews (value : Plan ρ μ .sample .expression (Value ρ μ))
      (law : Plan ρ μ .exact .expression (Law ρ μ)) :
      (((Plans.ofViews value law).step m).traced s r).IsTidy .expression s := by
    cases m with
    | sample => exact hevaluate value fun v => Flow.next (some v)
    | exact => exact hevaluate law fun l => Flow.next (some l)
  cases e with
  | literal x => exact hviews _ _
  | binary op left right => exact hviews _ _
  | dice count sides => exact hviews _ _
  | sequence es => exact hviews _ _
  | var name => exact hviews _ _
  | call shape arguments => exact hviews _ _
  | assign name x => exact absurd rfl (he name x)
  | output e => exact hevaluate (e.plans.answer m) fun a => Flow.ended a
  | block es =>
    refine (Trace.IsTidy.inFrame s.scope ?_).andThen fun _ _ => .idle _ _ _ _
    exact Plan.isTidy_trace (Plan.isTidy_traceBody s.fuel) _ _ r
  | declare signature body =>
    exact (Trace.IsTidy.declare signature body s r).andThen fun _ _ => .idle _ _ _ _

/-- An assignment evaluates its right side and binds its name if that succeeds. -/
lemma play_step_assign (name : String) (x : Expr ρ) (m : Mode) (s : Session ρ μ) (r : σ) :
    ((assign name x).ask (·.step m)).play s r =
      match (x.ask (·.stored m)).play s r with
      | (.ok b, u, r') => (.ok (.next none), u.assign name b, r')
      | (.error e, u, r') => (.error e, u, r') := by
  have hmeaning : (assign name x).meaning s.fuel = .assign name (x.meaning s.fuel : Meaning ρ μ) := by
    cases s.fuel <;> rfl
  rw [Run.play_eq, Run.exec_ask, hmeaning]
  have hx : (x.ask (·.stored m)).play s r = ((x.meaning s.fuel).stored m).play s r := by
    rw [Run.play_eq, Run.exec_ask, Run.play_eq]
  refine (Run.play_bind r ((x.meaning s.fuel).stored m) _ s).trans ?_
  rw [hx]
  rcases ((x.meaning s.fuel).stored m).play s r with ⟨_ | b, u, r'⟩ <;> rfl

/-- An assignment whose right side succeeds binds its name in the frame in which it stands. The other
frames stay as they are, and all of them do if the right side fails. -/
theorem step_assign (name : String) (x : Expr ρ) (m : Mode) (s : Session ρ μ) (r : σ) :
    let t := (((assign name x).ask (·.step m)).play s r).2.1
    s.KeepsParents t ∧
      match ((x.ask (·.stored m)).play s r).1 with
      | .ok b => ∀ i < s.frames.size, t.frames.frame? i =
          if i = s.scope.frame then (s.frames.frame? i).map (·.insert name b) else s.frames.frame? i
      | .error _ => ∀ i < s.frames.size, t.frames.frame? i = s.frames.frame? i := by
  intro t
  have ht : t = _ := Plan.session_traced (e := assign name x) (f := (·.step m))
    (x := ((assign name x).plans : Plans ρ μ).step m) (fun _ => rfl) s r
  refine ⟨ht ▸ Plan.keepsParents_traced _ s r, ?_⟩
  have hx := Plan.session_traced (f := (·.stored m)) (x := (x.plans : Plans ρ μ).stored m)
    (fun _ => rfl) s r
  have hkeeps := (Plan.keeps_traced ((x.plans : Plans ρ μ).stored m) s r).bindings
  have hscope := (Plan.isTidy_traced ((x.plans : Plans ρ μ).stored m) s r).scope
  rw [← hx] at hkeeps hscope
  have hplay : t = _ := congrArg (·.2.1) (play_step_assign name x m s r)
  rw [hplay]
  rcases hp : (x.ask (·.stored m)).play s r with ⟨_ | b, u, r'⟩ <;> rw [hp] at hkeeps hscope
  · exact hkeeps
  · intro i hi
    show (u.frames.assign u.scope name b).frame? i = _
    rw [show u.scope = s.scope from hscope, ← hkeeps i hi]
    unfold Frames.assign Frames.frame?
    rw [Array.getElem?_modify]
    simp only [eq_comm]

end Expr

/-! ## Whole sessions -/

/-- What can be done with a session. -/
inductive Operation (ρ μ : Type) [Scalar ρ] where
  /-- It is asked something. -/
  | request (q : Request ρ)
  /-- A global variable is bound. -/
  | bindGlobal (name : String) (b : Binding ρ μ)

namespace Operation

variable [Roller σ] [Mass μ]

/-- The session and the roller after an operation. The answer to a request is not kept, nor is a
failure to answer it. -/
def after : Operation ρ μ → Session ρ μ → σ → Session ρ μ × σ
  | request q, s, r => (q.perform.play s r).2
  | bindGlobal name b, s, r => (s.bindGlobal name b, r)

/-- The trace of an operation. -/
def trace : Operation ρ μ → Session ρ μ → σ → Trace ρ μ σ Unit
  | request q, s, r =>
    let t := q.trace s r
    ⟨t.log, .ok (), t.session, t.roller⟩
  | bindGlobal name b, s, r => ⟨[.bound 0 name b], .ok (), s.bindGlobal name b, r⟩

/-- Without its log, the trace of an operation is what the operation comes to. -/
lemma outcome_trace (o : Operation ρ μ) (s : Session ρ μ) (r : σ) :
    (o.trace s r).outcome = (.ok (), o.after s r) := by
  cases o with
  | request q => exact congrArg (fun p => (Except.ok (), p.2)) (q.outcome_trace s r)
  | bindGlobal name b => rfl

end Operation

namespace Session

variable [Roller σ] [Mass μ]

/-- The trace of operations in turn. -/
def history : List (Operation ρ μ) → Session ρ μ → σ → Trace ρ μ σ Unit
  | [], s, r => ⟨[], .ok (), s, r⟩
  | o :: os, s, r => (o.trace s r).andThen fun _ => history os

/-- The session and the roller after operations in turn. -/
def after (os : List (Operation ρ μ)) (s : Session ρ μ) (r : σ) : Session ρ μ × σ :=
  os.foldl (fun p o => o.after p.1 p.2) (s, r)

/-- Without its log, the trace of operations is what the operations come to. -/
lemma outcome_history (os : List (Operation ρ μ)) (s : Session ρ μ) (r : σ) :
    (history os s r).outcome = (.ok (), after os s r) := by
  induction os generalizing s r with
  | nil => rfl
  | cons o os ih =>
    show ((o.trace s r).andThen fun _ => history os).outcome = _
    rw [Trace.outcome_andThen, o.outcome_trace]
    exact ih _ _

end Session

namespace Trace

variable {p : Part} {s : Session ρ μ} {t : Trace ρ μ σ α}

/-- It does not matter for the frames what a session has spent. -/
lemma IsTidy.of_renewed (h : t.IsTidy p s.renewed) : t.IsTidy p s :=
  ⟨h.scope, h.frames, h.grows, h.bound, h.closed, h.spared⟩

/-- It does not matter for the frames what a run results in. -/
lemma IsTidy.forget {x : Except (Stop ρ μ) β} (h : t.IsTidy p s) :
    (⟨t.log, x, t.session, t.roller⟩ : Trace ρ μ σ β).IsTidy p s :=
  ⟨h.scope, h.frames, h.grows, h.bound, h.closed, h.spared⟩

end Trace

section Operations

variable [Roller σ] [Mass μ] {s : Session ρ μ}

/-- A request is run as a statement in the frame of the global variables. -/
lemma Request.isTidy_trace (q : Request ρ) (hs : s.scope = .global) (r : σ) :
    (q.trace s r : Trace ρ μ σ _).IsTidy .statement s := by
  cases q with
  | evaluate e => exact ((Plan.isTidy_traced _ s.renewed r).part _).of_renewed
  | distribution e =>
    refine (((Plan.isTidy_traced _ s.renewed r).part _).andThen fun _ _ => ?_).of_renewed
    exact .idle _ _ _ _
  | run e =>
    obtain ⟨limits, registry, frames, scope, spent, depth⟩ := s
    cases hs
    have hstep := Plan.isTidy_traced ((e.plans : Plans ρ μ).step .sample)
      ⟨limits, registry, frames, .global, 0, 0⟩ r
    exact ⟨rfl, hstep.frames, hstep.grows, hstep.bound, hstep.closed, hstep.spared⟩

/-- An operation is run as a statement in the frame of the global variables. -/
lemma Operation.isTidy_trace (o : Operation ρ μ) (hs : s.scope = .global) (r : σ) :
    (o.trace s r).IsTidy .statement s := by
  cases o with
  | request q => exact (q.isTidy_trace hs r).forget
  | bindGlobal name b =>
    obtain ⟨limits, registry, frames, scope, spent, depth⟩ := s
    cases hs
    exact .assign _ r name b

/-- Whatever is done with a session is run as statements in the frame of the global variables. -/
theorem Session.isTidy_history (os : List (Operation ρ μ)) (hs : s.scope = .global) (r : σ) :
    (history os s r).IsTidy .statement s := by
  induction os generalizing s r with
  | nil => exact .idle _ _ _ _
  | cons o os ih =>
    have ho := o.isTidy_trace hs r
    exact ho.andThen fun _ _ => ih (ho.scope.trans hs) _

variable {outer : Nat → List Nat}

/-- A request keeps what is around the frames. -/
lemma Request.links_trace (q : Request ρ) (hs : s.scope = .global) (h : s.IsLinked outer) (r : σ) :
    (q.trace s r : Trace ρ μ σ _).Links outer s := by
  obtain ⟨limits, registry, frames, scope, spent, depth⟩ := s
  cases hs
  have hrenewed : (⟨limits, registry, frames, .global, 0, 0⟩ : Session ρ μ).IsLinked outer :=
    ⟨h.scope, h.closures⟩
  cases q with
  | evaluate e =>
    have hvalue := Plan.links_traced e.plans.value hrenewed r
    exact ⟨hvalue.grows, hvalue.linked⟩
  | distribution e =>
    have hlaw := (Plan.links_traced e.plans.law hrenewed r).andThen (f := Trace.checked)
      fun _ _ _ h => .of_frames_eq h rfl rfl fun _ _ => .inr
    exact ⟨hlaw.grows, hlaw.linked⟩
  | run e =>
    obtain ⟨hgrows, outer', heq, hlinked⟩ :=
      Plan.links_traced ((e.plans : Plans ρ μ).step .sample) hrenewed r
    exact ⟨hgrows, outer', heq, h.scope.mono hgrows heq, hlinked.closures⟩

/-- An operation keeps what is around the frames. -/
lemma Operation.links_trace (o : Operation ρ μ) (hs : s.scope = .global) (h : s.IsLinked outer)
    (r : σ) : (o.trace s r).Links outer s := by
  cases o with
  | request q =>
    have hq := q.links_trace hs h r
    exact ⟨hq.grows, hq.linked⟩
  | bindGlobal name b => exact .of_frames_eq h rfl (Frames.size_assign ..) fun _ _ => .inr

/-- Whatever is done with a session keeps what is around its frames. -/
lemma Session.links_history (os : List (Operation ρ μ)) (hs : s.scope = .global)
    (h : s.IsLinked outer) (r : σ) : (history os s r).Links outer s := by
  induction os generalizing s outer r with
  | nil => exact .of_frames_eq h rfl rfl fun _ _ => .inr
  | cons o os ih =>
    have hscope := (o.isTidy_trace hs r).scope.trans hs
    exact (o.links_trace hs h r).andThen fun _ _ _ h => ih hscope h _

end Operations

/-! ## Frames that have ended -/

/-- A run of statements never changes a frame again whose block or activation has ended. -/
structure Trace.SealsFrames (s : Session ρ μ) (t : Trace ρ μ σ α) : Prop where
  /-- The log says all that was done to the frames. -/
  frames : t.session.frames = s.frames.replay t.log
  /-- The block or activation of each frame that was made has ended. -/
  ended : ∀ i, .closed i ∈ t.log ↔ s.frames.size ≤ i ∧ i < t.session.frames.size
  /-- From its end on, whatever is looked up in such a frame is what it was. -/
  final : ∀ i log log' rest, t.log = log ++ .closed i :: (log' ++ rest) → ∀ name,
    (s.frames.replay (log ++ .closed i :: log')).find? i name = (s.frames.replay log).find? i name
  /-- The frames that were there before, other than that of the statements, are as they were. -/
  earlier : ∀ i < s.frames.size, i ≠ s.scope.frame →
    t.session.frames.frame? i = s.frames.frame? i
  /-- The frames around the frames that were there before are the same. -/
  parents : s.KeepsParents t.session

/-- What is looked up in a frame in which a log binds nothing stays as it is. -/
lemma Frames.find?_replay {fs : Frames ρ μ} {log : List (Event ρ μ)} {i : Nat}
    (h : ∀ name b, .bound i name b ∉ log) (name : String) :
    (fs.replay log).find? i name = fs.find? i name := by
  induction log generalizing fs with
  | nil => rfl
  | cons e log ih =>
    refine (ih fun name b hmem => h name b (List.mem_cons_of_mem _ hmem)).trans ?_
    cases e with
    | opened j => exact fs.find?_extend .global i name
    | bound j n b =>
      refine (fs.find?_assign ⟨j, []⟩ n b i name).trans (if_neg ?_)
      rintro ⟨rfl, -⟩
      exact h n b List.mem_cons_self
    | _ => rfl

/-- A tidy run that keeps what is around the frames never changes a frame that has ended. -/
lemma Trace.IsTidy.sealsFrames {p : Part} {s : Session ρ μ} {t : Trace ρ μ σ α}
    (h : t.IsTidy p s) (hframe : s.scope.frame < s.frames.size)
    (hparents : s.KeepsParents t.session) : t.SealsFrames s where
  frames := h.frames
  ended := h.closed
  final i log log' rest hlog name := by
    have hspared := h.spared hframe
    rw [hlog, List.pairwise_append, List.pairwise_cons] at hspared
    rw [Frames.replay_append]
    refine Frames.find?_replay (fun n b hmem => ?_) name
    rcases List.mem_cons.1 hmem with heq | hmem
    · cases heq
    · exact hspared.2.1.1 _ (List.mem_append_left rest hmem) i n b rfl rfl
  earlier i hi hne := h.frame?_eq hi fun _ => hne
  parents := hparents

/-- Evaluation never writes to a frame that was there before. An expression leaves all frames as they
were, whatever it is asked for and whether or not that succeeds. A statement does so unless it is an
assignment whose right side succeeds, which binds its name in the frame in which it stands and leaves
the others. So whatever is done with a session, a frame never changes again once the block or the
activation has ended for which it was made.

**Proof sketch.** Every evaluation leaves a trace of the frames that it opens, closes and binds
names in. The trace of an expression is tidy: it binds names in frames that it has opened itself
only (`Plan.keeps_traced`). So is that of a statement, except for an assignment, which binds one
name in the frame in which it stands after the trace of its right side. A history of operations is
tidy as a whole and has its frames nested, so that a frame that is closed is not bound in again. -/
theorem evaluation_keeps_frames [Roller σ] [Mass μ] :
    (∀ (e : Expr ρ) (s : Session ρ μ) (r : σ),
      s.Keeps (e.value.play s r).2.1 ∧ s.Keeps (e.items.play s r).2.1 ∧
        s.Keeps (e.law.play s r).2.1 ∧ s.Keeps (e.laws.play s r).2.1) ∧
    (∀ (e : Expr ρ) (m : Mode) (s : Session ρ μ) (r : σ),
      let t := ((e.ask (·.step m)).play s r).2.1
      s.Keeps t ∨ s.KeepsParents t ∧ ∃ name x b, e = .assign name x ∧
        ((x.ask (·.stored m)).play s r).1 = .ok b ∧ ∀ i < s.frames.size, t.frames.frame? i =
          if i = s.scope.frame then (s.frames.frame? i).map (·.insert name b)
          else s.frames.frame? i) ∧
    ∀ (os : List (Operation ρ μ)) (s : Session ρ μ) (r : σ), s.scope = .global →
      0 < s.frames.size → (s.history os r).outcome = (.ok (), s.after os r) ∧
        (s.history os r).SealsFrames s := by
  refine ⟨fun e s r => ?_, fun e m s r => ?_, fun os s r hs hsize => ⟨s.outcome_history os r, ?_⟩⟩
  · have hkeeps {β : Type} {m : Mode} (x : Plan ρ μ m .expression β)
        {f : Meaning ρ μ → Run ρ μ β} (h : ∀ enter, x.run enter = f (e.plans.meaning enter)) :
        s.Keeps ((e.ask f).play s r).2.1 := by
      rw [Plan.session_traced h]
      exact Plan.keeps_traced x s r
    exact ⟨hkeeps e.plans.value fun _ => rfl, hkeeps e.plans.items fun _ => rfl,
      hkeeps e.plans.law fun _ => rfl, hkeeps e.plans.laws fun _ => rfl⟩
  · intro t
    by_cases he : ∃ name x, e = .assign name x
    · obtain ⟨name, x, rfl⟩ := he
      obtain ⟨hparents, hbindings⟩ := Expr.step_assign name x m s r
      split at hbindings
      · next b hb => exact .inr ⟨hparents, name, x, b, rfl, hb, hbindings⟩
      · exact .inl ⟨hbindings, hparents⟩
    · have ht : t = _ := Plan.session_traced (x := (e.plans : Plans ρ μ).step m)
        (f := (·.step m)) (fun _ => rfl) s r
      rw [ht]
      exact .inl (Plan.keeps_of_isTidy (Expr.isTidy_step (fun n x h => he ⟨n, x, h⟩) m s r))
  · refine (s.isTidy_history os hs r).sealsFrames ?_ fun outer h => (s.links_history os hs h r).linked
    rw [hs]
    exact hsize

/-- A block binds a variable, and declares a function that reads it. The function is called when the
block has ended and there is a global variable with the same name. It reads that of the block, whose
frame is as the block left it. -/
theorem evaluation_keeps_frames_closure :
    let f : Signature := ⟨"f", .ofList []⟩
    let block : Expr (WithBot ℚ) :=
      .block [.assign "x" (.literal (.int 1)), .declare f [.output (.var "x")]]
    let call : Expr (WithBot ℚ) := .ofCall "f" (.ofList [])
    let s : Session (WithBot ℚ) ℚ := .start ⟨none, some 1, none, 0⟩
    let two : Value (WithBot ℚ) ℚ := .number (.int 2)
    let os : List (Operation (WithBot ℚ) ℚ) :=
      [.request (.run block), .bindGlobal "x" (.value two), .request (.evaluate call)]
    let r : Stepper := ⟨1, 1⟩
    let t := s.after (os.take 2) r
    s.scope = .global ∧ 0 < s.frames.size ∧ (s.history os r).outcome = (.ok (), s.after os r) ∧
      (s.history os r).SealsFrames s ∧ s.IsLinked (fun _ => []) ∧
      ((Session.evaluate call).play t.1 t.2).1.toOption.bind (·.toNumber.toOption) =
        some (.int 1) := by
  intro f block call s two os r t
  obtain ⟨houtcome, hseals⟩ := evaluation_keeps_frames.2.2 os s r rfl Nat.one_pos
  have hcall : ((Session.evaluate call).play t.1 t.2).1.toOption.bind (·.toNumber.toOption) =
      some (.int 1) := by
    decide +kernel
  exact ⟨rfl, Nat.one_pos, houtcome, hseals, Session.isLinked_start _, hcall⟩

end DiceCalculus
