import DiceCalculus.Proofs.Plan.Evolution

set_option autoImplicit false
set_option relaxedAutoImplicit false

/-!
# Where variables are looked up

A run looks variables up in the scope in which it began, or in frames that it made itself inside that
scope. The bodies of the functions that it calls are runs of their own, in scopes of their own.

## Main definitions

* `Plan.reads` — what a run looks up, each time with the session as it then is.
* `Session.IsWithin` — a session in a scope inside that of an earlier one, with fresh frames between.

## Main results

* `Plan.isWithin_of_mem_reads` — a run looks variables up within its own scope.
* `Frames.findFirst?_eq_some_iff` — what is found is bound by the innermost frame that binds the name.
-/

namespace DiceCalculus

variable {ρ μ : Type} [Scalar ρ] {σ α γ : Type}

/-- What is listed of a run that goes on from another, if that has a result. -/
def Trace.afterwards (t : Trace ρ μ σ α) (f : α → Session ρ μ → σ → List γ) : List γ :=
  match t.result with
  | .ok a => f a t.session t.roller
  | .error _ => []

namespace Plan

variable [Roller σ]

/-- The names that a plan looks up, each with the session in which this is done, given the traces of
bodies. What the bodies look up is not listed. -/
def reads (body : List (Expr ρ) → (m : Mode) → Session ρ μ → σ → Trace ρ μ σ (m.Answer ρ μ))
    {m : Mode} {p : Part} {α : Type} : Plan ρ μ m p α → Session ρ μ → σ → List (String × Session ρ μ)
  | done _, _, _ => []
  | calculate c next, s, r =>
    (⟨[], (c.under s.limits).mapError .fault, s, r⟩ : Trace ..).afterwards fun b => (next b).reads body
  | roll count sides next, s, r =>
    (Trace.ofRun (fun _ => []) (Run.roll count sides) s r).afterwards fun faces =>
      (next faces).reads body
  | lookup name next, s, r =>
    (name, s) :: (Trace.ofRun (fun _ => []) (Run.lookup name) s r).afterwards fun b =>
      (next b).reads body
  | call shape builtin pairs next, s, r =>
    (match s.registry.find? shape with
      | some (.builtin b) => (builtin b).reads body s r
      | some (.user c) => (pairs c.signature).reads body s r
      | none => []) ++
    ((call shape builtin pairs done : Plan ρ μ _ .expression _).trace body s r).afterwards fun a =>
      (next a).reads body
  | frame inner next, s, r =>
    inner.reads body (s.enter s.scope) r ++
      (Trace.inFrame s (inner.trace body (s.enter s.scope) r)).afterwards fun b => (next b).reads body
  | exact inner next, s, r =>
    inner.reads body s r ++ (inner.trace body s r).afterwards fun b => (next b).reads body
  | evaluate inner next, s, r =>
    inner.reads body s r ++ (inner.trace body s r).afterwards fun b => (next b).reads body
  | assign name b next, s, r => next.reads body (s.assign name b) r
  | declare signature statements next, s, r =>
    (Trace.ofRun (fun _ => []) (Run.declare signature statements) s r).afterwards fun _ =>
      next.reads body

end Plan

/-! ## Scopes inside a scope -/

/-- A session in a scope inside that of an earlier one, with frames between that were made since. -/
def Session.IsWithin (s u : Session ρ μ) : Prop :=
  ∃ inner, u.scope.chain = inner ++ s.scope.chain ∧ ∀ i ∈ inner, s.frames.size ≤ i

namespace Session

variable {s t u : Session ρ μ}

/-- A session is within itself. -/
lemma IsWithin.refl (s : Session ρ μ) : s.IsWithin s := ⟨[], rfl, nofun⟩

/-- What is within a session to which an earlier one evolved is within that. -/
lemma IsWithin.of_evolves (h : t.IsWithin u) (hst : s.Evolves t) : s.IsWithin u := by
  obtain ⟨inner, hchain, hinner⟩ := h
  refine ⟨inner, ?_, fun i hi => Nat.le_trans hst.size_le (hinner i hi)⟩
  rw [hchain, hst.returns.scope]

/-- What is within a session in a fresh frame is within the session. -/
lemma IsWithin.of_enter (h : (s.enter s.scope).IsWithin u) : s.IsWithin u := by
  obtain ⟨inner, hchain, hinner⟩ := h
  refine ⟨inner ++ [s.frames.size], ?_, fun i hi => ?_⟩
  · rw [hchain, List.append_assoc]
    rfl
  · rcases List.mem_append.1 hi with hi | hi
    · exact Nat.le_trans (size_le_enter s s.scope) (hinner i hi)
    · exact Nat.le_of_eq (List.mem_singleton.1 hi).symm

end Session

namespace Plan

variable [Roller σ]

/-- A run looks variables up in the scope in which it began, or in a scope inside it whose further
frames it made itself.

**Proof sketch.** By induction over the plan. Between two steps of a plan the scope is that in which
the plan began. -/
theorem isWithin_of_mem_reads
    {body : List (Expr ρ) → (m : Mode) → Session ρ μ → σ → Trace ρ μ σ (m.Answer ρ μ)}
    (hbody : ∀ es m (s : Session ρ μ) r, s.Evolves (body es m s r).session) {m : Mode} {p : Part}
    (x : Plan ρ μ m p α) (s : Session ρ μ) (r : σ) :
    ∀ read ∈ x.reads body s r, s.IsWithin read.2 := by
  have hafter {β : Type} {t : Trace ρ μ σ β} {s : Session ρ μ} (ht : s.Evolves t.session)
      {f : β → Session ρ μ → σ → List (String × Session ρ μ)}
      (hf : ∀ b (s : Session ρ μ) r, ∀ read ∈ f b s r, s.IsWithin read.2) :
      ∀ read ∈ t.afterwards f, s.IsWithin read.2 := by
    intro read hread
    unfold Trace.afterwards at hread
    split at hread
    · exact (hf _ _ _ read hread).of_evolves ht
    · cases hread
  induction x generalizing s r with unfold reads
  | done a => exact fun _ => nofun
  | calculate c next ih =>
    exact hafter (t := ⟨[], (c.under s.limits).mapError .fault, s, r⟩) (.refl s) ih
  | roll count sides next ih => exact hafter (.roll count sides s r) ih
  | lookup name next ih => exact List.forall_mem_cons.2 ⟨.refl s, hafter (.lookup name s r) ih⟩
  | call shape builtin pairs next hbuiltin hpairs ih =>
    refine List.forall_mem_append.2 ⟨?_, hafter (evolves_trace hbody _ s r) ih⟩
    split
    · exact hbuiltin _ s r
    · exact hpairs _ s r
    · exact fun _ => nofun
  | frame inner next hinner ih =>
    refine List.forall_mem_append.2 ⟨fun read hread => (hinner _ r read hread).of_enter, ?_⟩
    exact hafter (.inFrame (evolves_trace hbody inner _ r)) ih
  | exact inner next hinner ih =>
    exact List.forall_mem_append.2 ⟨hinner s r, hafter (evolves_trace hbody inner s r) ih⟩
  | evaluate inner next hinner ih =>
    exact List.forall_mem_append.2 ⟨hinner s r, hafter (evolves_trace hbody inner s r) ih⟩
  | assign name b next ih =>
    exact fun read hread => (ih (s.assign name b) r read hread).of_evolves (.assign s name b)
  | declare signature statements next ih =>
    exact hafter (.play_declare signature statements s r) fun _ => ih

end Plan

/-! ## What is found -/

/-- What is found in a chain of frames is bound by the first that binds the name. -/
theorem Frames.findFirst?_eq_some_iff {fs : Frames ρ μ} {name : String} {chain : List Nat}
    {b : Binding ρ μ} : fs.findFirst? name chain = some b ↔
      ∃ inner i outer, chain = inner ++ i :: outer ∧ (∀ j ∈ inner, fs.find? j name = none) ∧
        fs.find? i name = some b := by
  induction chain with
  | nil => simp [findFirst?]
  | cons i chain ih =>
    rw [findFirst?]
    cases hi : fs.find? i name with
    | some b' =>
      constructor
      · intro hb
        exact ⟨[], i, chain, rfl, by simp, hi.trans hb⟩
      · rintro ⟨_ | ⟨j, inner⟩, k, outer, heq, hinner, hk⟩
        · obtain ⟨rfl, rfl⟩ := List.cons.inj heq
          exact hi.symm.trans hk
        · obtain ⟨rfl, rfl⟩ := List.cons.inj heq
          cases hi.symm.trans (hinner i List.mem_cons_self)
    | none =>
      rw [ih]
      constructor
      · rintro ⟨inner, k, outer, rfl, hinner, hk⟩
        exact ⟨i :: inner, k, outer, rfl, List.forall_mem_cons.2 ⟨hi, hinner⟩, hk⟩
      · rintro ⟨_ | ⟨j, inner⟩, k, outer, heq, hinner, hk⟩
        · obtain ⟨rfl, rfl⟩ := List.cons.inj heq
          cases hi.symm.trans hk
        · obtain ⟨rfl, rfl⟩ := List.cons.inj heq
          exact ⟨inner, k, outer, rfl, (List.forall_mem_cons.1 hinner).2, hk⟩

end DiceCalculus
