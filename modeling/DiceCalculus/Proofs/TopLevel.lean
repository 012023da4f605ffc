import DiceCalculus.Proofs.Consistency
import DiceCalculus.Proofs.Statements

set_option autoImplicit false
set_option relaxedAutoImplicit false

/-!
# Statements at the top level

A session runs a statement in the frame of the global variables, and it evaluates an expression in the
scope in which it is. These are two ways to the same value: an expression that is run as a statement
comes to what it is evaluated to, by the same requests for dice and with the same effect, whether or not
it fails. A block without a value is no failure of a statement, and one of an evaluation.

## Main definitions

* `Flow.value?` — the value with which a statement hands over or ends.

## Main results

* `Session.play_run` — a session in the scope of the global variables runs a statement.
* `Session.play_evaluate_eq_run` — what an expression is evaluated to, in terms of running it.
* `Session.play_run_output`, `Session.play_run_assign` — outputs and assignments.
* `run_agrees_with_evaluate` — all of these together.
-/

namespace DiceCalculus

variable {ρ μ : Type} [Scalar ρ] {σ : Type}

/-- The value with which a statement hands over or ends, if it has one. -/
def Flow.value? {α : Type} : Flow α → Option α
  | .next a => a
  | .ended a => some a

/-- In the scope of the global variables, a name is bound as a global variable. -/
lemma Session.assign_eq_bindGlobal {s : Session ρ μ} (hs : s.scope = .global) (name : String)
    (b : Binding ρ μ) : s.assign name b = s.bindGlobal name b := by
  obtain ⟨limits, registry, frames, scope, spent, depth⟩ := s
  cases hs
  rfl

variable [Mass μ] [Roller σ]

namespace Session

variable {s : Session ρ μ} {r : σ}

/-- An evaluation is that of the meaning of the expression, with no dice spent. -/
lemma play_evaluate (e : Expr ρ) (s : Session ρ μ) (r : σ) : (Session.evaluate e).play s r =
    ((e.meaning s.renewed.fuel).answer .sample).play s.renewed r :=
  Question.play_ask .value e s.renewed r

/-- In the scope of the global variables, a session runs a statement where it is. -/
theorem play_run (hs : s.scope = .global) (e : Expr ρ) (r : σ) : (Session.run e).play s r =
    ((((e.meaning s.renewed.fuel).step .sample).play s.renewed r).1.map Flow.value?,
      (((e.meaning s.renewed.fuel).step .sample).play s.renewed r).2) := by
  have hinside : s.renewed.inScope .global = s.renewed := by
    rw [← hs]
    rfl
  have hstep : e.step.play s.renewed r = ((e.meaning s.renewed.fuel).step .sample).play s.renewed r :=
    Question.play_ask (.step .sample) e s.renewed r
  have hscope : (((e.meaning s.renewed.fuel).step .sample).play s.renewed r).2.1.scope = s.scope :=
    Expr.scope_play_step e
  have hwithin : (Run.within .global e.step).play s.renewed r =
      ((e.meaning s.renewed.fuel).step .sample).play s.renewed r := by
    rw [Run.play_within, hinside, hstep]
    show (_, Session.inScope _ s.scope, _) = _
    rw [← hscope]
    rfl
  have hbegin : (Session.begin : Run ρ μ Unit).play s r = (.ok (), s.renewed, r) := rfl
  refine (Run.play_bind_ok hbegin _).trans ?_
  rw [Run.play_bind, hwithin]
  rcases ((e.meaning s.renewed.fuel).step .sample).play s.renewed r with ⟨_ | (_ | _), t, r'⟩ <;> rfl

/-- An expression is evaluated to the value that it has when it is run, and has none otherwise. The
session and the roller are left alike. -/
theorem play_evaluate_eq_run (hs : s.scope = .global) {e : Expr ρ} (he : e.kind.capability ≠ .statement)
    (r : σ) : (Session.evaluate e).play s r =
      (((Session.run e).play s r).1.bind fun v => v.elim (.error (.fault .noValue)) .ok,
        ((Session.run e).play s r).2) := by
  rw [play_evaluate, play_run hs, Expr.play_answer_eq_step he]
  rcases ((e.meaning s.renewed.fuel).step .sample).play s.renewed r with
    ⟨_ | ((_ | v) | v), t, r'⟩ <;> rfl

/-- Only a block has no value when it is run, of what can be evaluated. -/
lemma kind_eq_block_of_play_run (hs : s.scope = .global) {e : Expr ρ}
    (he : e.kind.capability ≠ .statement) (h : ((Session.run e).play s r).1 = .ok none) :
    e.kind = .block := by
  rw [play_run hs] at h
  rcases hstep : ((e.meaning s.renewed.fuel).step .sample).play s.renewed r with ⟨_ | (a | v), u, r₁⟩ <;>
    rw [hstep] at h <;> cases h
  rcases (Expr.eq_none_iff hstep).1 rfl with hkind | hkind | ⟨hkind, -⟩
  · exact absurd (by rw [hkind]; rfl) he
  · exact absurd (by rw [hkind]; rfl) he
  · exact hkind

/-- An output is run as the value of its expression. -/
theorem play_run_output (hs : s.scope = .global) (e : Expr ρ) (r : σ) :
    (Session.run (.output e)).play s r =
      (((Session.evaluate e).play s r).1.map some, ((Session.evaluate e).play s r).2) := by
  have hstep : ((Expr.output e).meaning s.renewed.fuel).step .sample =
      (do return .ended (← (e.meaning s.renewed.fuel).answer .sample) : Run ρ μ _) := by
    cases s.renewed.fuel <;> rfl
  rw [play_evaluate, play_run hs, hstep, Run.play_bind]
  rcases ((e.meaning s.renewed.fuel).answer .sample).play s.renewed r with ⟨_ | v, t, r'⟩ <;> rfl

/-- An assignment binds a global variable to the value of its right side, and fails if that does. -/
theorem play_run_assign (hs : s.scope = .global) (name : String) (e : Expr ρ) (r : σ) :
    (Session.run (.assign name e)).play s r =
      match (Session.evaluate e).play s r with
      | (.ok v, t, r') => (.ok none, t.bindGlobal name (.value v), r')
      | (.error x, t, r') => (.error x, t, r') := by
  obtain ⟨enter, henter⟩ := Expr.exists_meaning_eq_denote (ρ := ρ) (μ := μ) s.renewed.fuel
  have hstep : ((Expr.assign name e).meaning s.renewed.fuel).step .sample =
      (do
        let v ← (e.meaning s.renewed.fuel).answer .sample
        Run.assign name (.value v)
        return .next none : Run ρ μ _) := by
    rw [henter, henter]
    show (e.denote enter).stored .sample >>= _ = _
    rw [Expr.stored_sample_eq, bind_assoc]
    rfl
  have hscope : (((e.meaning s.renewed.fuel).answer .sample).play s.renewed r).2.1.scope = .global :=
    (Question.evolves_play .value s.renewed.fuel e s.renewed r).returns.scope.trans hs
  rw [play_evaluate, play_run hs, hstep, Run.play_bind]
  rcases hplay : ((e.meaning s.renewed.fuel).answer .sample).play s.renewed r with ⟨_ | v, t, r'⟩
  · rfl
  · rw [hplay] at hscope
    exact congrArg (Except.ok none, ·, r') (assign_eq_bindGlobal hscope name (.value v))

/-- An evaluation keeps the global variables, whether or not it fails. -/
lemma find?_play_evaluate (hsize : 0 < s.frames.size) (e : Expr ρ) (r : σ) (name : String) :
    ((Session.evaluate e).play s r).2.1.frames.find? 0 name = s.frames.find? 0 name := by
  have hsession : ((Session.evaluate e).play s r).2.1 = _ :=
    Question.session_traced .value e s.renewed r
  rw [hsession]
  exact congrArg (·.bind (·.find? name)) ((Plan.keeps_traced _ s.renewed r).bindings 0 hsize)

/-- An evaluation makes frames and removes none. -/
lemma size_le_play_evaluate (e : Expr ρ) (s : Session ρ μ) (r : σ) :
    s.frames.size ≤ ((Session.evaluate e).play s r).2.1.frames.size := by
  rw [play_evaluate]
  exact (Question.evolves_play .value s.renewed.fuel e s.renewed r).size_le

end Session

/-- To run a statement and to evaluate an expression is the same. In every session that can be reached,
with dice from any roller (so also from one that records what it is asked for):

* Anything but an assignment, a declaration or an output has a value when it is run exactly if it is
  evaluated to this value. If it has none, it is a block, and its evaluation fails for that cause; and
  if it fails, the evaluation fails alike. In any case both leave the same session, and the same roller.
* An output is run as its expression is evaluated, and is never without a value.
* If the right side of an assignment is evaluated to a value, the assignment has no value, and leaves the
  session of the evaluation with the name bound to the value in the frame of the global variables. All
  other global variables are as they were. If the right side fails, so does the assignment, and all
  global variables are as they were.

**Proof sketch.** A session at rest stands in the global scope, so that a statement is run where an
expression is evaluated. Each kind of statement has one equation that gives the run from the
evaluation (`Session.play_evaluate_eq_run`, `Session.play_run_output`, `Session.play_run_assign`),
and the cases are those of what the evaluation comes to. It keeps the global variables, since it
binds names in fresh frames only. -/
theorem run_agrees_with_evaluate (limits : Limits μ) (is : List (Interaction ρ μ)) (r₀ r : σ) :
    let s := ((Session.start limits).afterAll is r₀).1
    (∀ e : Expr ρ, e.kind ∉ [.assignment, .declaration, .output] →
      let ran := (Session.run e).play s r
      let evaluated := (Session.evaluate e).play s r
      (∀ v, ran.1 = .ok (some v) ↔ evaluated.1 = .ok v) ∧
      (ran.1 = .ok none → e.kind = .block ∧ evaluated.1 = .error (.fault .noValue)) ∧
      (∀ x, ran.1 = .error x → evaluated.1 = .error x) ∧ ran.2 = evaluated.2) ∧
    (∀ e : Expr ρ,
      let ran := (Session.run (.output e)).play s r
      let evaluated := (Session.evaluate e).play s r
      (∀ v, ran.1 = .ok (some v) ↔ evaluated.1 = .ok v) ∧ ran.1 ≠ .ok none ∧
      (∀ x, ran.1 = .error x ↔ evaluated.1 = .error x) ∧ ran.2 = evaluated.2) ∧
    ∀ (name : String) (e : Expr ρ) (t : Session ρ μ) (r' : σ),
      (∀ v, (Session.evaluate e).play s r = (.ok v, t, r') →
        (Session.run (.assign name e)).play s r =
          (.ok none, t.bindGlobal name (.value v), r') ∧
        ∀ n, (t.bindGlobal name (.value v)).frames.find? 0 n =
          if n = name then some (.value v) else s.frames.find? 0 n) ∧
      ∀ x, (Session.evaluate e).play s r = (.error x, t, r') →
        (Session.run (.assign name e)).play s r = (.error x, t, r') ∧
        ∀ n, t.frames.find? 0 n = s.frames.find? 0 n := by
  intro s
  have hrest : s.IsAtRest := (Session.isAtRest_start limits).afterAll is r₀
  have hs : s.scope = .global := hrest.scope
  have hsize : 0 < s.frames.size := by
    have hmade := hrest.consistent.scope.made
    rwa [hs] at hmade
  refine ⟨fun e he => ?_, fun e => ?_, fun name e t r' => ⟨fun v hplay => ?_, fun x hplay => ?_⟩⟩
  · have hcapability : e.kind.capability ≠ .statement := by
      generalize e.kind = kind at he
      cases kind <;> simp_all [Kind.capability]
    intro ran evaluated
    have heq : evaluated = (ran.1.bind fun v => v.elim (.error (.fault .noValue)) .ok, ran.2) :=
      Session.play_evaluate_eq_run hs hcapability r
    have hblock (h : ran.1 = .ok none) : e.kind = .block :=
      Session.kind_eq_block_of_play_run hs hcapability h
    rw [heq]
    generalize ran = p at hblock
    obtain ⟨x | (_ | v), u, r'⟩ := p
    · exact ⟨fun v => ⟨nofun, nofun⟩, nofun, fun _ h => h ▸ rfl, rfl⟩
    · exact ⟨fun v => ⟨nofun, nofun⟩, fun _ => ⟨hblock rfl, rfl⟩, nofun, rfl⟩
    · exact ⟨fun w => by simp [Except.bind], nofun, nofun, rfl⟩
  · intro ran evaluated
    have heq : ran = (evaluated.1.map some, evaluated.2) := Session.play_run_output hs e r
    rw [heq]
    generalize evaluated = p
    obtain ⟨x | v, u, r'⟩ := p
    · exact ⟨fun v => ⟨nofun, nofun⟩, nofun, fun _ => by simp [Except.map], rfl⟩
    · exact ⟨fun w => by simp [Except.map], nofun, fun _ => ⟨nofun, nofun⟩, rfl⟩
  · have hkept := Session.find?_play_evaluate hsize e r
    have hgrown := Session.size_le_play_evaluate e s r
    have hassign := Session.play_run_assign hs name e r
    rw [hplay] at hkept hgrown hassign
    refine ⟨hassign, fun n => (Frames.find?_assign ..).trans ?_⟩
    rw [hkept n]
    exact if_congr (by simp [Scope.global, hsize.trans_le hgrown]) rfl rfl
  · have hkept := Session.find?_play_evaluate hsize e r
    have hassign := Session.play_run_assign hs name e r
    rw [hplay] at hkept hassign
    exact ⟨hassign, hkept⟩

/-- Blocks that end with a roll and with an assignment, an output of the latter, and an assignment of the
former. Each asks for the same die, however it is run.

**Proof sketch.** The value of the block and the requests to the roller are computed for the
evaluation. What the runs come to follows from the theorem. -/
theorem run_agrees_with_evaluate_of_rolls :
    let roll : Expr (WithBot ℚ) := .dice (.literal (.int 1)) (.literal (.int 6))
    let valued : Expr (WithBot ℚ) := .block [roll]
    let empty : Expr (WithBot ℚ) := .block [.assign "y" roll]
    let one : Binding (WithBot ℚ) ℚ := .value (.number (.int 1))
    let start : Session (WithBot ℚ) ℚ := .start ⟨none, some 1, none, 0⟩
    let r : Recorded Stepper := .ofState ⟨3, 1⟩
    let rolled : Recorded Stepper := ⟨⟨4, 1⟩, [(1, 6)]⟩
    let s := (start.afterAll [.operation (.bindGlobal "x" one)] r).1
    ((Session.evaluate empty).play s r).1 = .error (.fault .noValue) ∧
      ((Session.evaluate empty).play s r).2.2 = rolled ∧
      ((Session.run (.output empty)).play s r).1 = .error (.fault .noValue) ∧
      ∃ v t, v.toNumber.toOption = some (.int 3) ∧
        ((Session.run valued).play s r).1 = .ok (some v) ∧
        (Session.run (.assign "y" valued)).play s r = (.ok none, t, rolled) ∧
        t.frames.find? 0 "y" = some (.value v) ∧ t.frames.find? 0 "x" = some one := by
  intro roll valued empty one start r rolled s
  obtain ⟨hother, houtput, hassign⟩ :=
    run_agrees_with_evaluate (ρ := WithBot ℚ) (⟨none, some 1, none, 0⟩ : Limits ℚ)
      [.operation (.bindGlobal "x" one)] r r
  obtain ⟨hvalued, -⟩ := hother valued (by decide)
  obtain ⟨-, hempty, -, hsame⟩ := hother empty (by decide)
  obtain ⟨-, hnone⟩ := hempty rfl
  have hvalue : ((Session.evaluate valued).play s r).1.toOption.bind (·.toNumber.toOption) =
      some (.int 3) := by
    decide +kernel
  have hrolled : ((Session.evaluate valued).play s r).2.2 = rolled := rfl
  refine ⟨hnone, congrArg (·.2) hsame.symm, ((houtput empty).2.2.1 _).2 hnone, ?_⟩
  rcases hplay : (Session.evaluate valued).play s r with ⟨_ | v, t, r'⟩
  · rw [hplay] at hvalue
    cases hvalue
  · rw [hplay] at hvalue hrolled
    obtain rfl : r' = rolled := hrolled
    obtain ⟨hrun, hbound⟩ := (hassign "y" valued t rolled).1 v hplay
    exact ⟨v, _, hvalue, (hvalued v).2 (congrArg (·.1) hplay), hrun, (hbound "y").trans (if_pos rfl),
      (hbound "x").trans (if_neg (by decide))⟩

end DiceCalculus
