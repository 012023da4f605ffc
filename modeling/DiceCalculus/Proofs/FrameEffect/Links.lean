import DiceCalculus.Proofs.FrameEffect.Tidy

set_option autoImplicit false
set_option relaxedAutoImplicit false

/-!
# The frames around a frame

A scope says which frames are around its innermost one. Scopes are made in two ways: a fresh frame is
put inside a scope that is there, and a declared function keeps the scope of its declaration. So the
frames around a frame are the same in every scope of a session, and stay so when expressions are
evaluated.

## Main definitions

* `Scope.Follows`, `Session.IsLinked` — the frames around each frame of the scopes of a session are
  those that a map gives.
* `Trace.Links` — a run leaves a session whose frames that were there before have the same frames
  around them.

## Main results

* `Plan.links_trace`, `Plan.links_traced` — every plan does.
* `Session.isLinked_start` — a new session has the global frame only.
-/

namespace DiceCalculus

variable {ρ μ : Type} [Scalar ρ] {σ α β : Type}

/-- The frames around each frame of a scope are those that a map gives, and there are enough
frames. -/
def Scope.Follows (outer : Nat → List Nat) (size : Nat) (scope : Scope) : Prop :=
  ∀ i rest, i :: rest <:+ scope.chain → i < size ∧ outer i = rest

/-- The frames around each frame of the scope, and of the scopes of the registered functions, are
those that a map gives. The parent of a frame is the first of them. -/
structure Session.IsLinked (outer : Nat → List Nat) (s : Session ρ μ) : Prop where
  /-- The frames of the scope. -/
  scope : s.scope.Follows outer s.frames.size
  /-- The frames of the scopes of the registered functions. -/
  closures : ∀ shape c, s.registry.find? shape = some (.user c) →
    c.scope.Follows outer s.frames.size

section Linked

variable {outer outer' : Nat → List Nat} {size size' : Nat} {scope : Scope}

/-- A scope stays as it is when there are more frames. -/
lemma Scope.Follows.mono (h : scope.Follows outer size) (hsize : size ≤ size')
    (houter : ∀ i < size, outer' i = outer i) : scope.Follows outer' size' := by
  intro i rest hi
  obtain ⟨hlt, rfl⟩ := h i rest hi
  exact ⟨Nat.lt_of_lt_of_le hlt hsize, houter i hlt⟩

/-- A scope with a fresh frame. -/
lemma Scope.Follows.extend (h : scope.Follows outer size) :
    (⟨size, scope.chain⟩ : Scope).Follows (fun i => if i = size then scope.chain else outer i)
      (size + 1) := by
  intro i rest hi
  rcases List.suffix_cons_iff.1 hi with heq | hi
  · obtain ⟨rfl, rfl⟩ := List.cons.inj heq
    exact ⟨Nat.lt_succ_self i, if_pos rfl⟩
  · obtain ⟨hlt, rfl⟩ := h i rest hi
    exact ⟨Nat.lt_succ_of_lt hlt, if_neg (Nat.ne_of_lt hlt)⟩

/-- A session in a fresh frame. -/
lemma Session.IsLinked.enter {s : Session ρ μ} (h : s.IsLinked outer)
    (hscope : scope.Follows outer s.frames.size) :
    (s.enter scope).IsLinked fun i => if i = s.frames.size then scope.chain else outer i := by
  have hsize : (s.enter scope).frames.size = s.frames.size + 1 := Frames.size_extend _ scope
  have houter : ∀ i < s.frames.size,
      (if i = s.frames.size then scope.chain else outer i) = outer i :=
    fun i hi => if_neg (Nat.ne_of_lt hi)
  refine ⟨?_, fun shape c hc => ?_⟩
  · rw [hsize]
    exact hscope.extend
  · exact (h.closures shape c hc).mono (by omega) houter

/-- In a new session no frame is around the only one there is. -/
theorem Session.isLinked_start (limits : Limits μ) :
    (start limits : Session ρ μ).IsLinked fun _ => [] where
  scope i rest h := by
    rcases List.suffix_cons_iff.1 h with heq | h
    · obtain ⟨rfl, rfl⟩ := List.cons.inj heq
      exact ⟨Nat.one_pos, rfl⟩
    · cases List.suffix_nil.1 h
  closures shape c h := absurd h (Registry.find?_standard_ne_user shape c)

end Linked

/-! ## Runs -/

namespace Trace

/-- After a run, the frames that were there before have the same frames around them. -/
structure Links (outer : Nat → List Nat) (s : Session ρ μ) (t : Trace ρ μ σ α) : Prop where
  /-- No frame is removed. -/
  grows : s.frames.size ≤ t.session.frames.size
  /-- The frames around the frames of the scopes that are left. -/
  linked : ∃ outer', (∀ i < s.frames.size, outer' i = outer i) ∧ t.session.IsLinked outer'

namespace Links

variable {outer : Nat → List Nat} {s : Session ρ μ} {t : Trace ρ μ σ α}

/-- A run that leaves the frames and the scope. The functions that are registered after it were so
before, or were declared in the scope. -/
lemma of_frames_eq (h : s.IsLinked outer) (hscope : t.session.scope = s.scope)
    (hsize : t.session.frames.size = s.frames.size)
    (hregistry : ∀ shape c, t.session.registry.find? shape = some (.user c) →
      c.scope = s.scope ∨ s.registry.find? shape = some (.user c)) : t.Links outer s := by
  refine ⟨Nat.le_of_eq hsize.symm, outer, fun _ _ => rfl, ?_, fun shape c hc => ?_⟩
  · rw [hscope, hsize]
    exact h.scope
  · rw [hsize]
    rcases hregistry shape c hc with hc | hc
    · exact hc ▸ h.scope
    · exact h.closures shape c hc

/-- Two runs in turn. -/
lemma andThen (h : t.Links outer s) {f : α → Session ρ μ → σ → Trace ρ μ σ β}
    (hf : ∀ a outer', (∀ i < s.frames.size, outer' i = outer i) → t.session.IsLinked outer' →
      (f a t.session t.roller).Links outer' t.session) : (t.andThen f).Links outer s := by
  obtain ⟨log, _ | a, s₁, r₁⟩ := t
  · exact ⟨h.grows, h.linked⟩
  · obtain ⟨outer₁, heq₁, hlinked₁⟩ := h.linked
    have hu : (f a s₁ r₁).Links outer₁ s₁ := hf a outer₁ heq₁ hlinked₁
    have hsize : s.frames.size ≤ s₁.frames.size := h.grows
    obtain ⟨outer₂, heq₂, hlinked₂⟩ := hu.linked
    refine ⟨Nat.le_trans hsize hu.grows, outer₂, fun i hi => ?_, hlinked₂⟩
    exact (heq₂ i (Nat.lt_of_lt_of_le hi hsize)).trans (heq₁ i hi)

/-- Statements that are run in a fresh frame. -/
lemma inFrame (scope : Scope) (houter : s.IsLinked outer)
    (h : t.Links (fun i => if i = s.frames.size then scope.chain else outer i) (s.enter scope)) :
    (Trace.inFrame s t).Links outer s := by
  have hsize : (s.enter scope).frames.size = s.frames.size + 1 := Frames.size_extend _ scope
  have hgrows := h.grows
  obtain ⟨outer₁, heq₁, hlinked₁⟩ := h.linked
  have heq : ∀ i < s.frames.size, outer₁ i = outer i := by
    intro i hi
    rw [heq₁ i (by omega), if_neg (Nat.ne_of_lt hi)]
  have hle : s.frames.size ≤ t.session.frames.size := by omega
  exact ⟨hle, outer₁, heq, houter.scope.mono hle heq, hlinked₁.closures⟩

/-- The body of a function, entered from the scope in which it is run. -/
lemma entered {body : Session ρ μ → σ → Trace ρ μ σ α} {r : σ} (houter : s.IsLinked outer)
    (h : (body (s.down s.scope) r).Links outer (s.down s.scope)) :
    (Trace.entered body s r).Links outer s := by
  unfold Trace.entered
  split
  · exact of_frames_eq houter rfl rfl fun _ _ => .inr
  · obtain ⟨outer₁, heq₁, hlinked₁⟩ := h.linked
    exact ⟨h.grows, outer₁, heq₁, houter.scope.mono h.grows heq₁, hlinked₁.closures⟩

/-- The activation of a function. -/
lemma activation {scope : Scope} (houter : s.IsLinked outer)
    (hscope : scope.Follows outer s.frames.size) (bs : List (String × Binding ρ μ))
    {body : Session ρ μ → σ → Trace ρ μ σ α}
    (h : ∀ s r outer, s.IsLinked outer → (body s r).Links outer s) (r : σ) :
    (Trace.activation scope bs body s r).Links outer s := by
  have hsize (bs : List (String × Binding ρ μ)) (s : Session ρ μ) :
      (s.assignAll bs).frames.size = s.frames.size := by
    induction bs generalizing s with
    | nil => rfl
    | cons b bs ih => exact (ih (s.assign b.1 b.2)).trans (Frames.size_assign ..)
  refine inFrame scope houter ?_
  refine andThen ?_ fun _ outer₁ _ h₁ => entered h₁ (h _ _ _ ⟨h₁.scope, h₁.closures⟩)
  refine of_frames_eq (houter.enter hscope) (Session.assignAll_scope ..) (hsize bs _) fun _ _ hc => ?_
  rw [Session.assignAll_registry] at hc
  exact .inr hc

variable [Roller σ]

/-- A request for dice. -/
lemma roll (h : s.IsLinked outer) (count sides : Nat) (r : σ) :
    (Trace.ofRun (fun _ => [.rolled count sides]) (Run.roll count sides) s r).Links outer s := by
  unfold Trace.ofRun
  rw [Run.play_roll]
  split <;> exact of_frames_eq h rfl rfl fun _ _ => .inr

/-- A lookup. -/
lemma lookup (h : s.IsLinked outer) (name : String) (r : σ) :
    (Trace.ofRun (fun _ => []) (Run.lookup name) s r).Links outer s := by
  unfold Trace.ofRun
  rw [Run.play_of_done r (Run.exec_lookup name s)]
  exact of_frames_eq h rfl rfl fun _ _ => .inr

/-- A name that is bound in the frame of a statement. -/
lemma assign (h : s.IsLinked outer) (name : String) (b : Binding ρ μ)
    (events : Unit → List (Event ρ μ)) (r : σ) :
    (Trace.ofRun events (Run.assign name b) s r).Links outer s :=
  of_frames_eq h rfl (Frames.size_assign ..) fun _ _ => .inr

/-- A declaration. -/
lemma declare (h : s.IsLinked outer) (signature : Signature) (body : List (Expr ρ)) (r : σ) :
    (Trace.ofRun (fun _ => []) (Run.declare signature body) s r).Links outer s := by
  have hexec := Run.exec_declare (μ := μ) signature body s
  unfold Trace.ofRun
  split at hexec
  · rw [Run.play_of_done r hexec]
    exact of_frames_eq h rfl rfl fun _ _ => .inr
  · rw [Run.play_of_done r hexec]
    refine of_frames_eq h rfl rfl fun shape c hc => ?_
    rw [Dictionary.find?_insert] at hc
    split at hc
    · obtain rfl := Function.user.inj (Option.some_inj.1 hc)
      exact .inl rfl
    · exact .inr hc

end Links

end Trace

/-! ## Plans -/

namespace Plan

variable [Roller σ]

/-- The run of a plan keeps what is around the frames if the runs of bodies do.

**Proof sketch.** By induction over the plan. A function that is called was registered when its
arguments began to be evaluated, so the scope of its declaration is one of the session at that time,
whatever the arguments declare. -/
theorem links_trace
    {body : List (Expr ρ) → (m : Mode) → Session ρ μ → σ → Trace ρ μ σ (m.Answer ρ μ)}
    (hbody : ∀ es m s r outer, s.IsLinked outer → (body es m s r).Links outer s) {m : Mode} {p : Part}
    (x : Plan ρ μ m p α) {outer : Nat → List Nat} {s : Session ρ μ} (h : s.IsLinked outer) (r : σ) :
    (x.trace body s r).Links outer s := by
  induction x generalizing outer s r with
  | done a => exact .of_frames_eq h rfl rfl fun _ _ => .inr
  | calculate c next ih =>
    exact (Trace.Links.of_frames_eq h rfl rfl fun _ _ => .inr).andThen fun b _ _ h => ih b h _
  | roll count sides next ih => exact (Trace.Links.roll h count sides r).andThen fun b _ _ h => ih b h _
  | lookup name next ih => exact (Trace.Links.lookup h name r).andThen fun b _ _ h => ih b h _
  | @call m p α shape builtin pairs next hbuiltin hpairs ih =>
    refine Trace.Links.andThen ?_ fun b _ _ h => ih b h _
    unfold Trace.dispatch
    rcases hc : s.registry.find? shape with _ | b | c
    · exact .of_frames_eq h rfl rfl fun _ _ => .inr
    · exact hbuiltin b h r
    · have hlinks := hpairs c.signature h r
      refine hlinks.andThen fun bs outer₁ heq h₁ => ?_
      have hscope := (h.closures shape c hc).mono hlinks.grows heq
      exact .activation h₁ hscope bs (hbody c.body m) _
  | frame inner next hinner ih =>
    refine Trace.Links.andThen (.inFrame s.scope h (hinner (h.enter h.scope) r)) fun b _ _ h => ih b h _
  | exact inner next hinner ih => exact (hinner h r).andThen fun b _ _ h => ih b h _
  | evaluate inner next hinner ih => exact (hinner h r).andThen fun b _ _ h => ih b h _
  | assign name b next ih =>
    exact (Trace.Links.assign h name b _ r).andThen fun _ _ _ h => ih h _
  | declare signature statements next ih =>
    exact (Trace.Links.declare h signature statements r).andThen fun _ _ _ h => ih h _

variable [Mass μ]

/-- The runs of bodies keep what is around the frames. -/
lemma links_traceBody (fuel : Nat) (es : List (Expr ρ)) (m : Mode) (s : Session ρ μ) (r : σ)
    (outer : Nat → List Nat) (h : s.IsLinked outer) : (traceBody fuel es m s r).Links outer s := by
  induction fuel generalizing es m s r outer with
  | zero => exact .of_frames_eq h rfl rfl fun _ _ => .inr
  | succ fuel ih => exact links_trace ih (ofBody es m) h r

/-- The run of a plan keeps what is around the frames. -/
theorem links_traced {m : Mode} {p : Part} (x : Plan ρ μ m p α) {outer : Nat → List Nat}
    {s : Session ρ μ} (h : s.IsLinked outer) (r : σ) : (x.traced s r).Links outer s :=
  links_trace (links_traceBody s.fuel) x h r

end Plan

end DiceCalculus
