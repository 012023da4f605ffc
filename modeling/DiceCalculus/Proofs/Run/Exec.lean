import DiceCalculus.Interpreter
import DiceCalculus.Proofs.Results
import DiceCalculus.Proofs.Sampler.Answers

set_option autoImplicit false
set_option relaxedAutoImplicit false

/-!
# Running a computation on a session

A computation on a session, run from one, is a sampler of a result and the session that is left.

## Main definitions

* `Run.exec` — a computation run from a session.
* `Run.Leads` — from a session, some allowed answers lead to a result and a session.

## Main results

* The `exec_` lemmas say what each step of a computation does.
* The `leads_` lemmas say what a computation in steps comes to, one step after the other.

## Design

Everything that is said about computations is said through `exec` and `Leads`, so that no later
proof opens the layers of which `Run` is made.
-/

namespace DiceCalculus

variable {ρ μ : Type} [Scalar ρ] {α β : Type}

namespace Session

/-- The session with a name bound in the innermost frame of its scope. -/
def assign (s : Session ρ μ) (name : String) (b : Binding ρ μ) : Session ρ μ :=
  { s with frames := s.frames.assign s.scope name b }

/-- The session with names bound in the innermost frame of its scope, one after the other. -/
def assignAll (s : Session ρ μ) (bs : List (String × Binding ρ μ)) : Session ρ μ :=
  bs.foldl (fun s b => s.assign b.1 b.2) s

section AssignAll

variable (s : Session ρ μ) (bs : List (String × Binding ρ μ))

/-- Binding names changes the frames only. -/
lemma assignAll_eq : s.assignAll bs = { s with frames := (s.assignAll bs).frames } := by
  induction bs generalizing s with
  | nil => rfl
  | cons b bs ih => exact ih (s.assign b.1 b.2)

/-- Binding names keeps the limits. -/
@[simp] lemma assignAll_limits : (s.assignAll bs).limits = s.limits := by rw [assignAll_eq]

/-- Binding names keeps the registry. -/
@[simp] lemma assignAll_registry : (s.assignAll bs).registry = s.registry := by rw [assignAll_eq]

/-- Binding names keeps the scope. -/
@[simp] lemma assignAll_scope : (s.assignAll bs).scope = s.scope := by rw [assignAll_eq]

/-- Binding names keeps the depth. -/
@[simp] lemma assignAll_depth : (s.assignAll bs).depth = s.depth := by rw [assignAll_eq]

end AssignAll

/-- The session in another scope. -/
def inScope (s : Session ρ μ) (scope : Scope) : Session ρ μ := { s with scope := scope }

/-- The session one call deeper, in the scope of a body. -/
def down (s : Session ρ μ) (scope : Scope) : Session ρ μ :=
  { s with scope := scope, depth := s.depth + 1 }

/-- The session back from one call, in the scope of the caller. -/
def up (s : Session ρ μ) (scope : Scope) : Session ρ μ :=
  { s with scope := scope, depth := s.depth - 1 }

/-- The session in a fresh frame inside a scope. -/
def enter (s : Session ρ μ) (scope : Scope) : Session ρ μ :=
  { s with scope := (s.frames.extend scope).1, frames := (s.frames.extend scope).2 }

end Session

namespace Run

/-- A computation run from a session. -/
def exec (act : Run ρ μ α) (s : Session ρ μ) : Sampler (Except (Stop ρ μ) α × Session ρ μ) :=
  act.run.run s

/-- From a session, some allowed answers lead to a result and a session. -/
def Leads (answers : Answers) (act : Run ρ μ α) (s : Session ρ μ) (r : Except (Stop ρ μ) α)
    (s' : Session ρ μ) : Prop := (act.exec s).Reaches answers (r, s')

/-! ## Steps -/

section Exec

/-- A value that is given. -/
@[simp] lemma exec_pure (a : α) (s : Session ρ μ) :
    (pure a : Run ρ μ α).exec s = .done (.ok a, s) := rfl

/-- One computation and then another. -/
lemma exec_bind (act : Run ρ μ α) (f : α → Run ρ μ β) (s : Session ρ μ) :
    (act >>= f).exec s = act.exec s >>= fun p =>
      match p.1 with
      | .ok a => (f a).exec p.2
      | .error e => .done (.error e, p.2) := by
  refine congrArg (act.exec s >>= ·) (funext fun p => ?_)
  obtain ⟨_ | a, s'⟩ := p <;> rfl

/-- A computation with a result that asks for no dice, and then another. -/
lemma exec_bind_done {act : Run ρ μ α} {f : α → Run ρ μ β} {a : α} {s t : Session ρ μ}
    (h : act.exec s = .done (.ok a, t)) : (act >>= f).exec s = (f a).exec t := by
  rw [exec_bind, h, Sampler.done_bind]

/-- A failure. -/
@[simp] lemma exec_throw (e : Stop ρ μ) (s : Session ρ μ) :
    (throw e : Run ρ μ α).exec s = .done (.error e, s) := rfl

/-- A failure with a cause. -/
@[simp] lemma exec_fail (f : Fault ρ μ) (s : Session ρ μ) :
    (fail f : Run ρ μ α).exec s = .done (.error (.fault f), s) := rfl

/-- The result of a calculation. -/
@[simp] lemma exec_ofExcept (x : Except (Fault ρ μ) α) (s : Session ρ μ) :
    (ofExcept x).exec s = .done (x.mapError .fault, s) := by
  cases x <;> rfl

/-- A value of the session. -/
@[simp] lemma exec_read (f : Session ρ μ → α) (s : Session ρ μ) :
    (read f).exec s = .done (.ok (f s), s) := rfl

/-- A change of the session. -/
@[simp] lemma exec_modify (f : Session ρ μ → Session ρ μ) (s : Session ρ μ) :
    (modify f : Run ρ μ Unit).exec s = .done (.ok (), f s) := rfl

/-- A request for dice is charged, and made if the limit allows it. -/
lemma exec_roll (count sides : Nat) (s : Session ρ μ) :
    (roll count sides).exec s =
      if Limits.allows s.limits.maxRolls (s.spent + count) then
        .roll count sides fun faces => .done (.ok faces, { s with spent := s.spent + count })
      else .done (.error (.fault .tooManyRolls), { s with spent := s.spent + count }) := by
  unfold roll
  rw [exec_bind, exec_modify, Sampler.done_bind]
  simp only
  rw [exec_bind, exec_read, Sampler.done_bind]
  simp only
  split <;> rfl

/-- The binding of a name in the scope. -/
@[simp] lemma exec_lookup (name : String) (s : Session ρ μ) :
    (lookup name).exec s = .done ((match s.frames.lookup? s.scope name with
      | some b => .ok b
      | none => .error (.fault (.unboundVariable name))), s) := by
  unfold lookup
  rw [exec_bind, exec_read, Sampler.done_bind]
  cases s.frames.lookup? s.scope name <;> rfl

/-- The function that is registered under a shape. -/
@[simp] lemma exec_function (shape : Shape) (s : Session ρ μ) :
    (function shape).exec s = .done ((match s.registry.find? shape with
      | some f => .ok f
      | none => .error (.fault (.unknownShape shape))), s) := by
  unfold function
  rw [exec_bind, exec_read, Sampler.done_bind]
  cases s.registry.find? shape <;> rfl

/-- A binding in the innermost frame. -/
@[simp] lemma exec_assign (name : String) (b : Binding ρ μ) (s : Session ρ μ) :
    (assign name b).exec s = .done (.ok (), s.assign name b) := rfl

/-- Bindings in the innermost frame, one after the other. -/
@[simp] lemma exec_forM_assign (bs : List (String × Binding ρ μ)) (s : Session ρ μ) :
    (bs.forM fun b => assign b.1 b.2).exec s = .done (.ok (), s.assignAll bs) := by
  induction bs generalizing s with
  | nil => rfl
  | cons b bs ih =>
    rw [List.forM_eq_forM, List.forM_cons, exec_bind, exec_assign]
    exact ih _

/-- A scope with a fresh frame. -/
@[simp] lemma exec_extend (scope : Scope) (s : Session ρ μ) :
    (extend scope).exec s =
      .done (.ok (s.enter scope).scope, (s.enter scope).inScope s.scope) := rfl

/-- A computation in another scope. -/
@[simp] lemma exec_within (scope : Scope) (act : Run ρ μ α) (s : Session ρ μ) :
    (within scope act).exec s =
      act.exec (s.inScope scope) >>= fun p => .done (p.1, p.2.inScope s.scope) :=
  rfl

/-- A computation in a fresh frame inside the scope. -/
@[simp] lemma exec_inFreshFrame (act : Run ρ μ α) (s : Session ρ μ) :
    (inFreshFrame act).exec s =
      act.exec (s.enter s.scope) >>= fun p => .done (p.1, p.2.inScope s.scope) := rfl

/-- A computation one call deeper. -/
@[simp] lemma exec_deeper (scope : Scope) (act : Run ρ μ α) (s : Session ρ μ) :
    (deeper scope act).exec s =
      act.exec (s.down scope) >>= fun p => .done (p.1, p.2.up s.scope) := by
  show (act.exec _ >>= fun p => Sampler.done _) >>= (fun p => Sampler.done _) = _
  rw [Sampler.bind_assoc]
  rfl

/-- The body of a function, unless the limit of the depth is reached. -/
lemma exec_activate (scope : Scope) (act : Run ρ μ α) (s : Session ρ μ) :
    (activate scope act).exec s =
      match s.limits.maxDepth.filter (· ≤ s.depth) with
      | some limit => .done (.error (.fault (.tooDeep limit)), s)
      | none => (deeper scope act).exec s := by
  unfold activate
  rw [exec_bind, exec_read, Sampler.done_bind]
  cases s.limits.maxDepth with
  | none => rfl
  | some limit =>
    simp only [exec_bind, exec_read, Sampler.done_bind]
    by_cases h : limit ≤ s.depth
    · simp only [h, Option.filter, if_true, decide_true]
      rfl
    · simp only [h, Option.filter, if_false, decide_false]
      rfl

/-- The activation of a function: a fresh frame inside the scope of its declaration, in which the
parameters are bound and the body is run. -/
lemma exec_activation (scope : Scope) (bs : List (String × Binding ρ μ)) (act : Run ρ μ α)
    (s : Session ρ μ) :
    (do
      let inner ← extend scope
      within inner (bs.forM fun b => assign b.1 b.2)
      activate inner act).exec s =
      match s.limits.maxDepth.filter (· ≤ s.depth) with
      | some limit =>
        .done (.error (.fault (.tooDeep limit)), ((s.enter scope).assignAll bs).inScope s.scope)
      | none => act.exec (((s.enter scope).assignAll bs).down (s.enter scope).scope) >>= fun p =>
        .done (p.1, p.2.up s.scope) := by
  rw [exec_bind, exec_extend, Sampler.done_bind]
  simp only
  rw [exec_bind, exec_within, exec_forM_assign]
  have hs : ((s.enter scope).inScope s.scope).inScope (s.enter scope).scope = s.enter scope := rfl
  simp only [Sampler.done_bind, exec_activate, exec_deeper, hs]
  have heq := Session.assignAll_eq (s.enter scope) bs
  generalize ((s.enter scope).assignAll bs).frames = frames at heq
  rw [heq]
  rfl

/-- A declaration. -/
lemma exec_declare (signature : Signature) (body : List (Expr ρ)) (s : Session ρ μ) :
    (declare signature body).exec s =
      match signature.repeatedParameter? with
      | some name => .done (.error (.fault (.repeatedParameter name)), s)
      | none => .done (.ok (), { s with
          registry := s.registry.insert signature.shape (.user ⟨signature, body, s.scope⟩) }) := by
  unfold declare
  cases signature.repeatedParameter? <;> rfl

end Exec

/-! ## What a computation leads to -/

section Leads

variable {answers : Answers} {act : Run ρ μ α} {f : α → Run ρ μ β} {s s' : Session ρ μ}

/-- A computation that is finished leads to its result. -/
lemma leads_iff_of_done {r r₀ : Except (Stop ρ μ) α} {s₀ : Session ρ μ}
    (h : act.exec s = .done (r₀, s₀)) : act.Leads answers s r s' ↔ r = r₀ ∧ s' = s₀ := by
  unfold Leads
  rw [h, Sampler.reaches_done, Prod.mk.injEq]

/-- A value that is given. -/
@[simp] lemma leads_pure {a : α} {r : Except (Stop ρ μ) α} :
    (pure a : Run ρ μ α).Leads answers s r s' ↔ r = .ok a ∧ s' = s :=
  leads_iff_of_done rfl

/-- A failure. -/
@[simp] lemma leads_throw {e : Stop ρ μ} {r : Except (Stop ρ μ) α} :
    (throw e : Run ρ μ α).Leads answers s r s' ↔ r = .error e ∧ s' = s :=
  leads_iff_of_done rfl

/-- A failure with a cause. -/
@[simp] lemma leads_fail {e : Fault ρ μ} {r : Except (Stop ρ μ) α} :
    (fail e : Run ρ μ α).Leads answers s r s' ↔ r = .error (.fault e) ∧ s' = s :=
  leads_iff_of_done rfl

/-- A value of the session. -/
@[simp] lemma leads_read {g : Session ρ μ → α} {r : Except (Stop ρ μ) α} :
    (read g).Leads answers s r s' ↔ r = .ok (g s) ∧ s' = s :=
  leads_iff_of_done rfl

/-- The result of a calculation. -/
@[simp] lemma leads_ofExcept {x : Except (Fault ρ μ) α} {r : Except (Stop ρ μ) α} :
    (ofExcept x).Leads answers s r s' ↔ r = x.mapError .fault ∧ s' = s :=
  leads_iff_of_done (exec_ofExcept x s)

/-- The result of a calculation that has one. -/
lemma leads_ofExcept_ok {x : Except (Fault ρ μ) α} {a : α} :
    (ofExcept x).Leads answers s (.ok a) s' ↔ x = .ok a ∧ s' = s := by
  rw [leads_ofExcept]
  cases x <;> simp [Except.mapError, eq_comm]

/-- One computation and then another: the first fails, or the second goes on from its result. -/
lemma leads_bind {r : Except (Stop ρ μ) β} : (act >>= f).Leads answers s r s' ↔
    (∃ a s₁, act.Leads answers s (.ok a) s₁ ∧ (f a).Leads answers s₁ r s') ∨
      ∃ e, act.Leads answers s (.error e) s' ∧ r = .error e := by
  unfold Leads
  rw [exec_bind, Sampler.reaches_bind_iff]
  constructor
  · rintro ⟨⟨a | a, s₁⟩, hact, h⟩
    · obtain ⟨rfl, rfl⟩ := Prod.mk.inj h
      exact .inr ⟨a, hact, rfl⟩
    · exact .inl ⟨a, s₁, hact, h⟩
  · rintro (⟨a, s₁, hact, h⟩ | ⟨e, hact, rfl⟩)
    · exact ⟨_, hact, h⟩
    · exact ⟨_, hact, rfl⟩

/-- One computation and then another have a result if both do, one after the other. -/
lemma leads_bind_ok {b : β} : (act >>= f).Leads answers s (.ok b) s' ↔
    ∃ a s₁, act.Leads answers s (.ok a) s₁ ∧ (f a).Leads answers s₁ (.ok b) s' := by
  rw [leads_bind, or_iff_left]
  rintro ⟨e, _, h⟩
  cases h

/-- A computation whose result is only passed on to a function. -/
lemma leads_bind_pure {g : α → β} {r : Except (Stop ρ μ) β} :
    (act >>= fun a => pure (g a)).Leads answers s r s' ↔
      ∃ r₀, act.Leads answers s r₀ s' ∧ r = r₀.map g := by
  rw [leads_bind]
  constructor
  · rintro (⟨a, s₁, hact, h⟩ | ⟨e, hact, rfl⟩)
    · obtain ⟨rfl, rfl⟩ := leads_pure.1 h
      exact ⟨_, hact, rfl⟩
    · exact ⟨_, hact, rfl⟩
  · rintro ⟨_ | a, hact, rfl⟩
    · exact .inr ⟨_, hact, rfl⟩
    · exact .inl ⟨a, s', hact, leads_pure.2 ⟨rfl, rfl⟩⟩

/-- A function of a result. -/
lemma leads_bind_pure_ok {g : α → β} {b : β} :
    (act >>= fun a => pure (g a)).Leads answers s (.ok b) s' ↔
      ∃ a, act.Leads answers s (.ok a) s' ∧ b = g a := by
  rw [leads_bind_pure]
  constructor
  · rintro ⟨_ | a, hact, h⟩
    · cases h
    · exact ⟨a, hact, Except.ok.inj h⟩
  · rintro ⟨a, hact, rfl⟩
    exact ⟨_, hact, rfl⟩

/-- The result of a calculation under the limits of the session. -/
lemma leads_calculate_ok {c : Limits μ → Except (Fault ρ μ) α} {a : α} :
    (do ofExcept (c (← read (·.limits)))).Leads answers s (.ok a) s' ↔
      c s.limits = .ok a ∧ s' = s := by
  rw [leads_bind_ok]
  constructor
  · rintro ⟨limits, t, hlimits, hc⟩
    obtain ⟨hlimits, rfl⟩ := leads_read.1 hlimits
    obtain rfl := Except.ok.inj hlimits
    exact leads_ofExcept_ok.1 hc
  · exact fun hc => ⟨_, _, leads_read.2 ⟨rfl, rfl⟩, leads_ofExcept_ok.2 hc⟩

/-- A request is charged, and answered if the limit allows it. -/
lemma leads_roll {count sides : Nat} {r : Except (Stop ρ μ) (List UInt32)} :
    (roll count sides).Leads answers s r s' ↔
      s' = { s with spent := s.spent + count } ∧
        if Limits.allows s.limits.maxRolls (s.spent + count) then
          ∃ faces, answers count sides faces ∧ r = .ok faces
        else r = .error (.fault .tooManyRolls) := by
  unfold Leads
  rw [exec_roll]
  split
  · simp only [Sampler.reaches_roll, Sampler.reaches_done, Prod.mk.injEq]
    constructor
    · rintro ⟨faces, h, hr, hs⟩
      exact ⟨hs, faces, h, hr⟩
    · rintro ⟨hs, faces, h, hr⟩
      exact ⟨faces, h, hr, hs⟩
  · rw [Sampler.reaches_done, Prod.mk.injEq, and_comm]

/-- The binding of a name. -/
lemma leads_lookup_ok {name : String} {b : Binding ρ μ} :
    (lookup name).Leads answers s (.ok b) s' ↔ s.frames.lookup? s.scope name = some b ∧ s' = s := by
  rw [leads_iff_of_done (exec_lookup name s)]
  cases s.frames.lookup? s.scope name <;> simp [eq_comm]

/-- The function that is registered under a shape. -/
lemma leads_function_ok {shape : Shape} {g : Function ρ} :
    (function shape).Leads answers s (.ok g) s' ↔ s.registry.find? shape = some g ∧ s' = s := by
  rw [leads_iff_of_done (exec_function shape s)]
  cases s.registry.find? shape <;> simp [eq_comm]

/-- A binding in the innermost frame. -/
@[simp] lemma leads_assign {name : String} {b : Binding ρ μ} {r : Except (Stop ρ μ) Unit} :
    (assign name b).Leads answers s r s' ↔ r = .ok () ∧ s' = s.assign name b :=
  leads_iff_of_done rfl

/-- A computation in a fresh frame. -/
lemma leads_inFreshFrame {r : Except (Stop ρ μ) α} :
    (inFreshFrame act).Leads answers s r s' ↔
      ∃ s₁, act.Leads answers (s.enter s.scope) r s₁ ∧ s' = s₁.inScope s.scope := by
  unfold Leads
  rw [exec_inFreshFrame]
  exact Sampler.reaches_bind_done_iff (g := fun s₁ : Session ρ μ => s₁.inScope s.scope)

/-- The activation of a function. -/
lemma leads_activation {scope : Scope} {bs : List (String × Binding ρ μ)}
    {r : Except (Stop ρ μ) α} :
    (do
      let inner ← extend scope
      within inner (bs.forM fun b => assign b.1 b.2)
      activate inner act).Leads answers s r s' ↔
      match s.limits.maxDepth.filter (· ≤ s.depth) with
      | some limit =>
        r = .error (.fault (.tooDeep limit)) ∧ s' = ((s.enter scope).assignAll bs).inScope s.scope
      | none =>
        ∃ t, act.Leads answers (((s.enter scope).assignAll bs).down (s.enter scope).scope) r t ∧
          s' = t.up s.scope := by
  unfold Leads
  rw [exec_activation]
  split
  · rw [Sampler.reaches_done, Prod.mk.injEq]
  · exact Sampler.reaches_bind_done_iff (g := fun s₁ : Session ρ μ => s₁.up s.scope)

/-- The activation of a function has a result if the body has one and the depth allows it. -/
lemma leads_activation_ok {scope : Scope} {bs : List (String × Binding ρ μ)} {a : α}
    (h : (do
      let inner ← extend scope
      within inner (bs.forM fun b => assign b.1 b.2)
      activate inner act).Leads answers s (.ok a) s') :
    ∃ t, act.Leads answers (((s.enter scope).assignAll bs).down (s.enter scope).scope) (.ok a) t := by
  rw [leads_activation] at h
  split at h
  · cases h.1
  · obtain ⟨t, ht, -⟩ := h
    exact ⟨t, ht⟩

/-- A declaration. -/
lemma leads_declare {signature : Signature} {body : List (Expr ρ)}
    {r : Except (Stop ρ μ) Unit} : (declare signature body).Leads answers s r s' ↔
      match signature.repeatedParameter? with
      | some name => r = .error (.fault (.repeatedParameter name)) ∧ s' = s
      | none => r = .ok () ∧ s' = { s with
          registry := s.registry.insert signature.shape (.user ⟨signature, body, s.scope⟩) } := by
  unfold Leads
  rw [exec_declare]
  split <;> rw [Sampler.reaches_done, Prod.mk.injEq]

/-- An answer of an expression is that of its meaning, with the fuel of the session. -/
lemma exec_ask [Mass μ] (e : Expr ρ) (question : Meaning ρ μ → Run ρ μ α) (s : Session ρ μ) :
    (e.ask question).exec s = (question (e.meaning s.fuel)).exec s := by
  unfold Expr.ask
  rw [exec_bind, exec_read, Sampler.done_bind]

/-- An answer of an expression leads to what that of its meaning leads to. -/
lemma leads_ask [Mass μ] {e : Expr ρ} {question : Meaning ρ μ → Run ρ μ α}
    {r : Except (Stop ρ μ) α} :
    (e.ask question).Leads answers s r s' ↔
      (question (e.meaning s.fuel)).Leads answers s r s' := by
  unfold Leads
  rw [exec_ask]

/-- A computation carried out with dice from a roller comes to what its answers lead to. -/
lemma leads_play {σ : Type} [Roller σ] (hσ : Roller.Answers σ answers) (act : Run ρ μ α)
    (s : Session ρ μ) (r : σ) :
    act.Leads answers s (act.play s r).1 (act.play s r).2.1 :=
  Sampler.reaches_play hσ (act.exec s) r

end Leads

end Run

/-! ## What a session is asked -/

namespace Session

variable {answers : Answers} {s s' : Session ρ μ}

/-- The session at the start of an evaluation: no dice are spent and no calls are under way. -/
def renewed (s : Session ρ μ) : Session ρ μ := { s with spent := 0, depth := 0 }

variable [Mass μ]

/-- The law of an expression if it has mass one up to a tolerance. -/
def checked (tolerance : μ) (l : Law ρ μ) : Except (Stop ρ μ) (Law ρ μ) :=
  if l.isNormalized tolerance then .ok l else .error (.fault (.notNormalized l.total))

/-- A law that is given after it was checked is the law that was computed. -/
lemma eq_of_checked {tolerance : μ} {l d : Law ρ μ} (h : checked tolerance l = .ok d) : l = d := by
  unfold checked at h
  split at h
  · exact Except.ok.inj h
  · cases h

/-- A sample comes from a renewed session. -/
lemma leads_evaluate {e : Expr ρ} {r : Except (Stop ρ μ) (Value ρ μ)} :
    (evaluate e).Leads answers s r s' ↔ e.value.Leads answers s.renewed r s' := Iff.rfl

/-- A law is computed in a renewed session and then checked for its mass. -/
lemma exec_distribution (e : Expr ρ) (s : Session ρ μ) :
    (distribution e).exec s = e.law.exec s.renewed >>= fun p =>
      .done (p.1.bind (checked p.2.limits.tolerance), p.2) := by
  show (e.law >>= fun l => _).exec s.renewed = _
  rw [Run.exec_bind]
  refine congrArg (_ >>= ·) (funext fun p => ?_)
  obtain ⟨_ | l, t⟩ := p
  · rfl
  · simp only [Run.exec_bind, Run.exec_read, Sampler.done_bind, checked, Except.bind]
    split <;> rfl

/-- The law that a session gives is that of the expression in a renewed session, if it has mass
one. -/
lemma leads_distribution {e : Expr ρ} {r : Except (Stop ρ μ) (Law ρ μ)} :
    (distribution e).Leads answers s r s' ↔
      ∃ r₀, e.law.Leads answers s.renewed r₀ s' ∧ r = r₀.bind (checked s'.limits.tolerance) := by
  unfold Run.Leads
  simp only [exec_distribution, Sampler.reaches_bind_iff, Sampler.reaches_done, Prod.mk.injEq]
  constructor
  · rintro ⟨⟨r₀, t⟩, h, rfl, rfl⟩
    exact ⟨r₀, h, rfl⟩
  · rintro ⟨r₀, h, rfl⟩
    exact ⟨(r₀, s'), h, rfl, rfl⟩

end Session

end DiceCalculus
