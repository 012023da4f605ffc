import DiceCalculus.Proofs.Plan.Questions
import DiceCalculus.Proofs.Run.Scoping

set_option autoImplicit false
set_option relaxedAutoImplicit false

/-!
# How a session evolves

A run changes a session in few ways: it spends dice, binds names, declares functions, and runs parts
of a program in frames and at depths from which it comes back. They are said here once. What every
run keeps of a session is then proved by induction over how a session evolves, whatever is run.

## Main definitions

* `Session.Evolves` — the ways in which a run changes a session.
* `Session.Returns` — a session in the scope and at the depth of an earlier one, under the same
  limits.

## Main results

* `Plan.evolves_trace`, `Plan.evolves_traced` — every run makes a session evolve, with or without a
  result.
* `Session.Evolves.returns` — where a run began, it ends.

## Design

A function may be redeclared while its arguments are evaluated. Its scope is therefore read off the
session in which the call begins, and its frame is made in the session to which the arguments lead.
-/

namespace DiceCalculus

variable {ρ μ : Type} [Scalar ρ] {σ α β : Type}

/-- The ways in which a run changes a session. -/
inductive Session.Evolves : Session ρ μ → Session ρ μ → Prop where
  /-- Nothing is changed. -/
  | refl (s : Session ρ μ) : Evolves s s
  /-- One change follows another. -/
  | trans {s t u : Session ρ μ} : Evolves s t → Evolves t u → Evolves s u
  /-- Dice are spent. -/
  | spend (s : Session ρ μ) (count : Nat) : Evolves s { s with spent := s.spent + count }
  /-- A name is bound in the innermost frame. -/
  | assign (s : Session ρ μ) (name : String) (b : Binding ρ μ) : Evolves s (s.assign name b)
  /-- A function is declared whose parameters have different names. -/
  | declare (s : Session ρ μ) {signature : Signature} (body : List (Expr ρ))
      (h : signature.repeatedParameter? = none) :
      Evolves s { s with
        registry := s.registry.insert signature.shape (.user ⟨signature, body, s.scope⟩) }
  /-- Statements are run in a fresh frame. -/
  | frame {s t : Session ρ μ} : Evolves (s.enter s.scope) t → Evolves s (t.inScope s.scope)
  /-- A function that is registered is activated after its arguments were evaluated. -/
  | activation {s t u : Session ρ μ} {shape : Shape} {c : Closure ρ}
      (h : s.registry.find? shape = some (.user c)) :
      Evolves s t → Evolves (t.enter c.scope) u → Evolves s (u.inScope t.scope)
  /-- The body of a function is run one call deeper. -/
  | call {s t : Session ρ μ} : Evolves (s.down s.scope) t → Evolves s (t.up s.scope)

namespace Session.Evolves

variable {s : Session ρ μ}

/-- Names are bound one after the other. -/
lemma assignAll (s : Session ρ μ) (bs : List (String × Binding ρ μ)) :
    s.Evolves (s.assignAll bs) := by
  induction bs generalizing s with
  | nil => exact .refl s
  | cons b bs ih => exact .trans (.assign s b.1 b.2) (ih (s.assign b.1 b.2))

/-- Runs in turn. -/
lemma andThen {t : Trace ρ μ σ α} (h : s.Evolves t.session)
    {f : α → Session ρ μ → σ → Trace ρ μ σ β}
    (hf : ∀ a (s : Session ρ μ) r, s.Evolves (f a s r).session) :
    s.Evolves (t.andThen f).session := by
  obtain ⟨log, _ | a, u, r⟩ := t
  · exact h
  · exact h.trans (hf a u r)

/-- The body of a function, entered from the scope in which it is run. -/
lemma entered {body : Session ρ μ → σ → Trace ρ μ σ α}
    (h : ∀ (s : Session ρ μ) r, s.Evolves (body s r).session) (s : Session ρ μ) (r : σ) :
    s.Evolves (Trace.entered body s r).session := by
  unfold Trace.entered
  split
  · exact .refl s
  · exact .call (h (s.down s.scope) r)

section Play

variable [Roller σ]

/-- Computations in turn. -/
lemma bind {act : Run ρ μ α} {f : α → Run ρ μ β} {r : σ} (h : s.Evolves (act.play s r).2.1)
    (hf : ∀ a (t : Session ρ μ) (r : σ), t.Evolves ((f a).play t r).2.1) :
    s.Evolves ((act >>= f).play s r).2.1 := by
  rw [Run.play_bind]
  generalize act.play s r = x at h ⊢
  obtain ⟨_ | a, t, r'⟩ := x
  · exact h
  · exact h.trans (hf a t r')

/-- A request for dice. -/
lemma roll (count sides : Nat) (s : Session ρ μ) (r : σ) :
    s.Evolves ((Run.roll count sides).play s r).2.1 := by
  rw [Run.play_roll]
  split <;> exact .spend s count

/-- A lookup. -/
lemma lookup (name : String) (s : Session ρ μ) (r : σ) :
    s.Evolves ((Run.lookup name).play s r).2.1 := by
  rw [Run.play_of_done r (Run.exec_lookup name s)]
  exact .refl s

/-- A declaration, which may fail. -/
lemma play_declare (signature : Signature) (body : List (Expr ρ)) (s : Session ρ μ) (r : σ) :
    s.Evolves ((Run.declare signature body).play s r).2.1 := by
  have hexec := Run.exec_declare (μ := μ) signature body s
  split at hexec
  · rw [Run.play_of_done r hexec]
    exact .refl s
  · next hrepeated =>
    rw [Run.play_of_done r hexec]
    exact .declare s body hrepeated

end Play

/-- Statements that are run in a fresh frame. -/
lemma inFrame {t : Trace ρ μ σ α} (h : (s.enter s.scope).Evolves t.session) :
    s.Evolves (Trace.inFrame s t).session := .frame h

/-- A call of a registered function, from the evaluation of its arguments on. -/
lemma called {shape : Shape} {c : Closure ρ} (hc : s.registry.find? shape = some (.user c))
    {t : Trace ρ μ σ (List (String × Binding ρ μ))} (hargs : s.Evolves t.session)
    {body : Session ρ μ → σ → Trace ρ μ σ α}
    (h : ∀ (s : Session ρ μ) r, s.Evolves (body s r).session) :
    s.Evolves (t.andThen fun bs => Trace.activation c.scope bs body).session := by
  obtain ⟨log, _ | bs, t, r⟩ := t
  · exact hargs
  · exact .activation hc hargs (.trans (.assignAll (t.enter c.scope) bs) (.entered h _ r))

end Session.Evolves

namespace Plan

variable [Roller σ]

/-- The run of a plan makes a session evolve if the runs of bodies do.

**Proof sketch.** By induction over the plan. Most steps are one of the ways themselves; a call of a
declared function binds its parameters and enters its body in the frame of the activation. -/
theorem evolves_trace
    {body : List (Expr ρ) → (m : Mode) → Session ρ μ → σ → Trace ρ μ σ (m.Answer ρ μ)}
    (hbody : ∀ es m (s : Session ρ μ) r, s.Evolves (body es m s r).session) {m : Mode} {p : Part}
    (x : Plan ρ μ m p α) (s : Session ρ μ) (r : σ) : s.Evolves (x.trace body s r).session := by
  induction x generalizing s r with
  | done a => exact .refl s
  | calculate c next ih => exact .andThen (.refl s) ih
  | roll count sides next ih => exact .andThen (.roll count sides s r) ih
  | lookup name next ih => exact .andThen (.lookup name s r) ih
  | @call m p α shape builtin pairs next hbuiltin hpairs ih =>
    refine .andThen ?_ ih
    unfold Trace.dispatch
    rcases hc : s.registry.find? shape with _ | b | c
    · exact .refl s
    · exact hbuiltin b s r
    · exact .called hc (hpairs c.signature s r) (hbody c.body m)
  | frame inner next hinner ih => exact .andThen (.inFrame (hinner (s.enter s.scope) r)) ih
  | exact inner next hinner ih => exact .andThen (hinner s r) ih
  | evaluate inner next hinner ih => exact .andThen (hinner s r) ih
  | assign name b next ih => exact .andThen (.assign s name b) fun _ => ih
  | declare signature statements next ih =>
    exact .andThen (.play_declare signature statements s r) fun _ => ih

variable [Mass μ]

/-- The runs of bodies make a session evolve. -/
lemma evolves_traceBody (fuel : Nat) (es : List (Expr ρ)) (m : Mode) (s : Session ρ μ) (r : σ) :
    s.Evolves (traceBody fuel es m s r).session := by
  induction fuel generalizing es m s r with
  | zero => exact .refl s
  | succ fuel ih => exact evolves_trace ih (ofBody es m) s r

/-- The run of a plan makes a session evolve. -/
theorem evolves_traced {m : Mode} {p : Part} (x : Plan ρ μ m p α) (s : Session ρ μ) (r : σ) :
    s.Evolves (x.traced s r).session := evolves_trace (evolves_traceBody s.fuel) x s r

end Plan

/-- All answers of all expressions make a session evolve, with any amount of fuel. -/
lemma Question.evolves_play [Roller σ] [Mass μ] (q : Question) (fuel : Nat) (e : Expr ρ)
    (s : Session ρ μ) (r : σ) : s.Evolves ((q.of (e.meaning fuel)).play s r).2.1 := by
  rw [← q.outcome_trace]
  exact Plan.evolves_trace (Plan.evolves_traceBody fuel) (q.plan e.plans) s r

/-! ## Where a run ends -/

/-- A session in the scope and at the depth of an earlier one, under the same limits. -/
structure Session.Returns (s t : Session ρ μ) : Prop where
  /-- The limits are the same. -/
  limits : t.limits = s.limits
  /-- The scope is the same. -/
  scope : t.scope = s.scope
  /-- As many calls are under way. -/
  depth : t.depth = s.depth

namespace Session.Evolves

variable {s t : Session ρ μ}

/-- A run ends in the scope and at the depth in which it began. -/
theorem returns (h : s.Evolves t) : s.Returns t := by
  induction h with
  | refl s => exact ⟨rfl, rfl, rfl⟩
  | trans _ _ h h' =>
    exact ⟨h'.limits.trans h.limits, h'.scope.trans h.scope, h'.depth.trans h.depth⟩
  | spend s count => exact ⟨rfl, rfl, rfl⟩
  | assign s name b => exact ⟨rfl, rfl, rfl⟩
  | declare s body _ => exact ⟨rfl, rfl, rfl⟩
  | frame _ h => exact ⟨h.limits, rfl, h.depth⟩
  | activation _ _ _ h h' => exact ⟨h'.limits.trans h.limits, h.scope, h'.depth.trans h.depth⟩
  | @call s t _ h =>
    refine ⟨h.limits, rfl, ?_⟩
    show t.depth - 1 = s.depth
    rw [h.depth]
    exact Nat.add_sub_cancel s.depth 1

/-- To come back to the scope in which a run began changes nothing. -/
lemma inScope (h : s.Evolves t) : s.Evolves (t.inScope s.scope) := by
  have hscope : t.inScope s.scope = t := congrArg t.inScope h.returns.scope.symm
  rwa [hscope]

/-- No frame is removed. -/
lemma size_le (h : s.Evolves t) : s.frames.size ≤ t.frames.size := by
  induction h with
  | refl s => exact Nat.le_refl _
  | trans _ _ h h' => exact Nat.le_trans h h'
  | spend s count => exact Nat.le_refl _
  | assign s name b => exact Nat.le_of_eq (Frames.size_assign ..).symm
  | declare s body _ => exact Nat.le_refl _
  | @frame s t _ h => exact Nat.le_trans (Session.size_le_enter s s.scope) h
  | @activation s t u shape c _ _ _ h h' =>
    exact Nat.le_trans h (Nat.le_trans (Session.size_le_enter t c.scope) h')
  | call _ h => exact h

end Session.Evolves

end DiceCalculus
