import DiceCalculus.Proofs.Plan.Trace
import DiceCalculus.Proofs.Sessions

set_option autoImplicit false
set_option relaxedAutoImplicit false

/-!
# What a run does to the frames

A run binds variables in the frames that it makes itself, and, if it is that of a statement, in the
frame in which the statement stands. A frame that it made is closed before the run ends, and no
variable of a closed frame is bound again.

## Main definitions

* `Frames.replay` — the frames after what a log says was done to them.
* `Event.Spares` — an event that may follow another: it binds nothing in a frame that was closed.
* `Trace.IsTidy` — what a run does to the frames, and what it leaves alone.

## Main results

* `Trace.IsTidy.andThen`, `Trace.IsTidy.inFrame` — runs in turn, and runs in a fresh frame.
* `Plan.isTidy_trace` — every plan, by induction over its steps.
* `Plan.isTidy_traced` — with any amount of fuel.
-/

namespace DiceCalculus

variable {ρ μ : Type} [Scalar ρ] {σ α β : Type}

/-! ## The frames after a log -/

/-- The variables of a frame, if it exists. -/
def Frames.frame? (fs : Frames ρ μ) (i : Nat) : Option (Dictionary String (Binding ρ μ)) :=
  fs.bindings[i]?

namespace Event

/-- The frames after an event. -/
def replay (fs : Frames ρ μ) : Event ρ μ → Frames ρ μ
  | opened _ => ⟨fs.bindings.push .empty⟩
  | bound i name b => ⟨fs.bindings.modify i (·.insert name b)⟩
  | _ => fs

/-- An event that may follow another: it binds nothing in a frame that the other closes. -/
def Spares (e e' : Event ρ μ) : Prop := ∀ i name b, e = .closed i → e' ≠ .bound i name b

/-- An event that has nothing to do with frames. -/
def IsQuiet : Event ρ μ → Prop
  | opened _ | bound _ _ _ | closed _ => False
  | _ => True

/-- Events that close no frame may follow one another. -/
lemma pairwise_spares {log : List (Event ρ μ)} (h : ∀ i, .closed i ∉ log) :
    log.Pairwise Spares := by
  induction log with
  | nil => exact .nil
  | cons e log ih =>
    refine List.pairwise_cons.2 ⟨?_, ih fun i hi => h i (List.mem_cons_of_mem _ hi)⟩
    rintro e' _ i name b rfl
    exact absurd List.mem_cons_self (h i)

/-- An event that has nothing to do with frames changes none. -/
lemma IsQuiet.replay {e : Event ρ μ} (h : e.IsQuiet) (fs : Frames ρ μ) : e.replay fs = fs := by
  cases e <;> first | rfl | cases h

end Event

namespace Frames

/-- The frames after the events of a log. -/
def replay (fs : Frames ρ μ) (log : List (Event ρ μ)) : Frames ρ μ := log.foldl Event.replay fs

variable {fs : Frames ρ μ} {log log' : List (Event ρ μ)}

/-- The events of two logs in turn. -/
lemma replay_append (fs : Frames ρ μ) (log log' : List (Event ρ μ)) :
    fs.replay (log ++ log') = (fs.replay log).replay log' := List.foldl_append

/-- Events that have nothing to do with frames change none. -/
lemma replay_of_isQuiet (h : ∀ e ∈ log, e.IsQuiet) : fs.replay log = fs := by
  induction log with
  | nil => rfl
  | cons e log ih =>
    rw [List.forall_mem_cons] at h
    show (e.replay fs).replay log = fs
    rw [h.1.replay, ih h.2]

/-- A frame in which a log binds nothing stays as it is. -/
lemma frame?_replay {i : Nat} (hi : i < fs.size) (h : ∀ name b, .bound i name b ∉ log) :
    (fs.replay log).frame? i = fs.frame? i := by
  induction log generalizing fs with
  | nil => rfl
  | cons e log ih =>
    have hlog (name : String) (b : Binding ρ μ) : .bound i name b ∉ log :=
      fun hmem => h name b (List.mem_cons_of_mem _ hmem)
    have hstep : i < (e.replay fs).size ∧ (e.replay fs).frame? i = fs.frame? i := by
      unfold size frame? at *
      cases e with
      | opened j =>
        refine ⟨?_, ?_⟩
        · simp only [Event.replay, Array.size_push]
          omega
        · simp only [Event.replay, Array.getElem?_push, if_neg (Nat.ne_of_lt hi)]
      | bound j name b =>
        have hj : j ≠ i := by
          rintro rfl
          exact h name b List.mem_cons_self
        refine ⟨?_, ?_⟩
        · simpa only [Event.replay, Array.size_modify] using hi
        · simp only [Event.replay, Array.getElem?_modify, if_neg hj]
      | _ => exact ⟨hi, rfl⟩
    exact (ih hstep.1 hlog).trans hstep.2

end Frames

/-! ## Tidy runs -/

namespace Trace

/-- What a run of a part of a program does to the frames of a session, and what it leaves alone. -/
structure IsTidy (p : Part) (s : Session ρ μ) (t : Trace ρ μ σ α) : Prop where
  /-- The run ends in the scope in which it began. -/
  scope : t.session.scope = s.scope
  /-- The log says all that was done to the frames. -/
  frames : t.session.frames = s.frames.replay t.log
  /-- No frame is removed. -/
  grows : s.frames.size ≤ t.session.frames.size
  /-- Names are bound in frames that the run made, and by a statement in that in which it stands. -/
  bound : ∀ i name b, .bound i name b ∈ t.log →
    s.frames.size ≤ i ∨ p = .statement ∧ i = s.scope.frame
  /-- The frames that the run made are those that are closed. -/
  closed : ∀ i, .closed i ∈ t.log ↔ s.frames.size ≤ i ∧ i < t.session.frames.size
  /-- Nothing is bound in a frame that is closed. -/
  spared : s.scope.frame < s.frames.size → t.log.Pairwise Event.Spares

namespace IsTidy

variable {p : Part} {s : Session ρ μ} {t : Trace ρ μ σ α}

/-- A run that has nothing to do with frames. -/
lemma of_isQuiet (hscope : t.session.scope = s.scope) (hframes : t.session.frames = s.frames)
    (hlog : ∀ e ∈ t.log, e.IsQuiet) : t.IsTidy p s where
  scope := hscope
  frames := by rw [hframes, Frames.replay_of_isQuiet hlog]
  grows := Nat.le_of_eq (congrArg Frames.size hframes.symm)
  bound i name b h := (hlog _ h).elim
  closed i := by
    rw [hframes]
    exact ⟨fun h => (hlog _ h).elim, fun h => by omega⟩
  spared _ := Event.pairwise_spares fun i hi => hlog _ hi

/-- A run that does nothing. -/
lemma idle (p : Part) (s : Session ρ μ) (r : σ) (x : Except (Stop ρ μ) α) :
    (⟨[], x, s, r⟩ : Trace ρ μ σ α).IsTidy p s :=
  of_isQuiet rfl rfl nofun

/-- An expression does no more than a statement may. -/
lemma part (h : t.IsTidy .expression s) (p : Part) : t.IsTidy p s where
  scope := h.scope
  frames := h.frames
  grows := h.grows
  bound i name b hb := (h.bound i name b hb).imp_right fun hp => nomatch hp.1
  closed := h.closed
  spared := h.spared

/-- Two runs in turn. No name is bound by the second in a frame that the first closed, since the
first made that frame, and the second stands in one that was there before.

**Proof sketch.** If the first run fails, it is the whole. Otherwise the bounds of the two are
chained: frames only grow, and the second run stands in the scope of the first. A name that the
second binds is in a frame that it made itself, or in the one it stands in; the first closed only
frames that it made, so neither was closed before. -/
theorem andThen (h : t.IsTidy p s) {f : α → Session ρ μ → σ → Trace ρ μ σ β}
    (hf : ∀ a, t.result = .ok a → (f a t.session t.roller).IsTidy p t.session) :
    (t.andThen f).IsTidy p s := by
  obtain ⟨log, _ | a, s₁, r₁⟩ := t
  · exact ⟨h.scope, h.frames, h.grows, h.bound, h.closed, h.spared⟩
  · have hu : (f a s₁ r₁).IsTidy p s₁ := hf a rfl
    show Trace.IsTidy p s { f a s₁ r₁ with log := log ++ (f a s₁ r₁).log }
    generalize f a s₁ r₁ = u at hu
    have hsize : s.frames.size ≤ s₁.frames.size := h.grows
    have hsize₁ : s₁.frames.size ≤ u.session.frames.size := hu.grows
    have hscope : s₁.scope = s.scope := h.scope
    refine ⟨hu.scope.trans hscope, ?_, Nat.le_trans hsize hsize₁, ?_, ?_, ?_⟩
    · rw [Frames.replay_append, ← h.frames, ← hu.frames]
    · intro i name b hb
      rcases List.mem_append.1 hb with hb | hb
      · exact h.bound i name b hb
      · rcases hu.bound i name b hb with hi | ⟨hp, hi⟩
        · exact .inl (Nat.le_trans hsize hi)
        · exact .inr ⟨hp, hi.trans (congrArg Scope.frame hscope)⟩
    · intro i
      have hclosed : Event.closed i ∈ log ↔ _ := h.closed i
      rw [List.mem_append, hclosed, hu.closed i]
      show _ ∧ i < s₁.frames.size ∨ _ ↔ _ ∧ i < u.session.frames.size
      omega
    · intro hframe
      have hframe₁ : s₁.scope.frame < s₁.frames.size := by
        rw [hscope]
        exact Nat.lt_of_lt_of_le hframe hsize
      refine List.pairwise_append.2 ⟨h.spared hframe, hu.spared hframe₁, ?_⟩
      rintro e he e' he' i name b rfl rfl
      have hi : s.frames.size ≤ i ∧ i < s₁.frames.size := (h.closed i).1 he
      rcases hu.bound i name b he' with hle | ⟨-, heq⟩
      · omega
      · rw [hscope] at heq
        omega

/-- A run of statements in a fresh frame is that of an expression around it. -/
theorem inFrame (scope : Scope) (h : t.IsTidy .statement (s.enter scope)) :
    (Trace.inFrame s t).IsTidy .expression s := by
  have hsize : (s.enter scope).frames.size = s.frames.size + 1 := Frames.size_extend _ scope
  have hgrows := h.grows
  refine ⟨rfl, ?_, ?_, ?_, ?_, ?_⟩
  · show t.session.frames = (s.enter scope).frames.replay (t.log ++ [.closed s.frames.size])
    rw [Frames.replay_append, ← h.frames]
    rfl
  · show s.frames.size ≤ t.session.frames.size
    omega
  · intro i name b hb
    have hmem : .bound i name b ∈ t.log := by simpa [Trace.inFrame] using hb
    rcases h.bound i name b hmem with hi | ⟨-, rfl⟩
    · exact .inl (by omega)
    · exact .inl (Nat.le_refl _)
  · intro i
    have hmem : .closed i ∈ (Trace.inFrame s t).log ↔ .closed i ∈ t.log ∨ i = s.frames.size := by
      simp [Trace.inFrame]
    rw [hmem, h.closed i]
    show _ ↔ s.frames.size ≤ i ∧ i < t.session.frames.size
    omega
  · intro _
    have hspared := h.spared (Nat.lt_of_lt_of_le (Nat.lt_succ_self _) (Nat.le_of_eq hsize.symm))
    refine List.pairwise_cons.2 ⟨?_, List.pairwise_append.2 ⟨hspared, List.pairwise_singleton _ _, ?_⟩⟩
    · rintro e' _ i name b h
      cases h
    · rintro e _ e' he' i name b rfl rfl
      cases List.mem_singleton.1 he'

/-- A name that is bound in the frame of a statement. -/
lemma assign (s : Session ρ μ) (r : σ) (name : String) (b : Binding ρ μ) :
    (⟨[.bound s.scope.frame name b], .ok (), s.assign name b, r⟩ : Trace ρ μ σ Unit).IsTidy
      .statement s where
  scope := rfl
  frames := rfl
  grows := Nat.le_of_eq (Frames.size_assign ..).symm
  bound i n b' hb := by
    cases List.mem_singleton.1 hb
    exact .inr ⟨rfl, rfl⟩
  closed i := by
    have hsize : (s.assign name b).frames.size = s.frames.size := Frames.size_assign ..
    simp only [List.mem_singleton, reduceCtorEq, false_iff, hsize]
    omega
  spared _ := List.pairwise_singleton _ _

/-- Names that are bound in the frame of a statement, one after the other. -/
lemma assignAll (s : Session ρ μ) (r : σ) (bs : List (String × Binding ρ μ)) :
    (⟨bs.map fun b => .bound s.scope.frame b.1 b.2, .ok (), s.assignAll bs, r⟩ :
      Trace ρ μ σ Unit).IsTidy .statement s := by
  induction bs generalizing s with
  | nil => exact idle .statement s r (.ok ())
  | cons b bs ih =>
    exact (assign s r b.1 b.2).andThen (f := fun _ s r =>
      ⟨bs.map fun b => .bound s.scope.frame b.1 b.2, .ok (), s.assignAll bs, r⟩)
      fun _ _ => ih (s.assign b.1 b.2)

/-- The body of a function, entered from the scope in which it is run. -/
lemma entered {body : Session ρ μ → σ → Trace ρ μ σ α} {s : Session ρ μ} {r : σ}
    (h : (body (s.down s.scope) r).IsTidy .statement (s.down s.scope)) :
    (Trace.entered body s r).IsTidy .statement s := by
  unfold Trace.entered
  split
  · exact idle .statement s r _
  · generalize body (s.down s.scope) r = t at h
    have hmem (e : Event ρ μ) (hcalled : e ≠ .called) (hreturned : e ≠ .returned) :
        e ∈ .called :: (t.log ++ [.returned]) ↔ e ∈ t.log := by
      simp [hcalled, hreturned]
    refine ⟨rfl, ?_, h.grows, fun i name b hb => ?_, fun i => ?_, fun hframe => ?_⟩
    · show t.session.frames = s.frames.replay (t.log ++ [.returned])
      rw [Frames.replay_append, show s.frames = (s.down s.scope).frames from rfl, ← h.frames]
      rfl
    · exact h.bound i name b ((hmem (.bound i name b) nofun nofun).1 hb)
    · exact (hmem (.closed i) nofun nofun).trans (h.closed i)
    · refine List.pairwise_cons.2 ⟨?_, List.pairwise_append.2
        ⟨h.spared hframe, List.pairwise_singleton _ _, ?_⟩⟩
      · rintro e' _ i name b he
        cases he
      · rintro e _ e' he' i name b rfl rfl
        cases List.mem_singleton.1 he'

/-- The activation of a function. -/
lemma activation (scope : Scope) (bs : List (String × Binding ρ μ))
    {body : Session ρ μ → σ → Trace ρ μ σ α} (h : ∀ s r, (body s r).IsTidy .statement s)
    (s : Session ρ μ) (r : σ) : (Trace.activation scope bs body s r).IsTidy .expression s :=
  inFrame scope
    ((assignAll (s.enter scope) r bs).andThen fun _ _ => entered (h _ _))

/-- A calculation. -/
lemma calculate (limits : Limits μ) (c : Calculation ρ μ α) (s : Session ρ μ) (r : σ) :
    (⟨(c.sizes.takeWhile (Limits.allows limits.maxOutcomes)).map .measured,
      (c.under limits).mapError .fault, s, r⟩ : Trace ρ μ σ α).IsTidy p s := by
  refine of_isQuiet rfl rfl fun e he => ?_
  obtain ⟨n, -, rfl⟩ := List.mem_map.1 he
  trivial

variable [Roller σ]

/-- A request for dice. -/
lemma roll (count sides : Nat) (s : Session ρ μ) (r : σ) :
    (Trace.ofRun (fun _ => [.rolled count sides]) (Run.roll count sides) s r).IsTidy p s := by
  unfold Trace.ofRun
  rw [Run.play_roll]
  split
  · exact of_isQuiet rfl rfl (List.forall_mem_singleton.2 trivial)
  · exact of_isQuiet rfl rfl nofun

/-- A lookup. -/
lemma lookup (name : String) (s : Session ρ μ) (r : σ) :
    (Trace.ofRun (fun _ => []) (Run.lookup name) s r).IsTidy p s := by
  unfold Trace.ofRun
  rw [Run.play_of_done r (Run.exec_lookup name s)]
  cases s.frames.lookup? s.scope name with
  | none => exact idle p s r _
  | some b => exact idle p s r _

/-- A declaration. -/
lemma declare (signature : Signature) (body : List (Expr ρ)) (s : Session ρ μ) (r : σ) :
    (Trace.ofRun (fun _ => []) (Run.declare signature body) s r).IsTidy p s := by
  have hexec := Run.exec_declare (μ := μ) signature body s
  unfold Trace.ofRun
  split at hexec
  · rw [Run.play_of_done r hexec]
    exact of_isQuiet rfl rfl nofun
  · rw [Run.play_of_done r hexec]
    exact of_isQuiet rfl rfl nofun

end IsTidy

end Trace

/-! ## Plans -/

namespace Plan

variable [Roller σ]

/-- The run of a plan is tidy if the runs of bodies are.

**Proof sketch.** By induction over the plan. Only a statement has a step that binds a name in the
frame in which it stands; all other names are bound in frames that a step makes and closes. -/
theorem isTidy_trace
    {body : List (Expr ρ) → (m : Mode) → Session ρ μ → σ → Trace ρ μ σ (m.Answer ρ μ)}
    (hbody : ∀ es m s r, (body es m s r).IsTidy .statement s) {m : Mode} {p : Part}
    (x : Plan ρ μ m p α) (s : Session ρ μ) (r : σ) : (x.trace body s r).IsTidy p s := by
  induction x generalizing s r with
  | done a => exact .idle _ s r (.ok a)
  | calculate c next ih => exact (Trace.IsTidy.calculate s.limits c s r).andThen fun b _ => ih b _ _
  | roll count sides next ih => exact (Trace.IsTidy.roll count sides s r).andThen fun b _ => ih b _ _
  | lookup name next ih => exact (Trace.IsTidy.lookup name s r).andThen fun b _ => ih b _ _
  | @call m p α shape builtin pairs next hbuiltin hpairs ih =>
    refine Trace.IsTidy.andThen ?_ fun b _ => ih b _ _
    unfold Trace.dispatch
    rcases s.registry.find? shape with _ | b | c
    · exact .idle _ s r _
    · exact (hbuiltin b s r).part _
    · refine ((hpairs c.signature s r).andThen fun bs _ => ?_).part _
      exact Trace.IsTidy.activation c.scope bs (hbody c.body m) _ _
  | frame inner next hinner ih =>
    exact ((Trace.IsTidy.inFrame s.scope (hinner _ r)).part _).andThen fun b _ => ih b _ _
  | exact inner next hinner ih => exact ((hinner s r).part _).andThen fun b _ => ih b _ _
  | evaluate inner next hinner ih => exact ((hinner s r).part _).andThen fun b _ => ih b _ _
  | assign name b next ih => exact (Trace.IsTidy.assign s r name b).andThen fun _ _ => ih _ _
  | declare signature statements next ih =>
    exact (Trace.IsTidy.declare signature statements s r).andThen fun _ _ => ih _ _

variable [Mass μ]

/-- The runs of bodies are tidy. -/
lemma isTidy_traceBody (fuel : Nat) (es : List (Expr ρ)) (m : Mode) (s : Session ρ μ) (r : σ) :
    (traceBody fuel es m s r).IsTidy .statement s := by
  induction fuel generalizing es m s r with
  | zero => exact .idle _ s r _
  | succ fuel ih => exact isTidy_trace ih (ofBody es m) s r

/-- The run of a plan is tidy. -/
theorem isTidy_traced {m : Mode} {p : Part} (x : Plan ρ μ m p α) (s : Session ρ μ) (r : σ) :
    (x.traced s r).IsTidy p s := isTidy_trace (isTidy_traceBody s.fuel) x s r

end Plan

end DiceCalculus
