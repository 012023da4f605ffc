import DiceCalculus.Proofs.FrameEffect.Tidy
import DiceCalculus.Proofs.Exact
import DiceCalculus.Proofs.Plan.Questions
import DiceCalculus.Roller

set_option autoImplicit false
set_option relaxedAutoImplicit false

/-!
# Statement lists

Statements are run one after the other up to the first that ends the list, be it with a value or with
a failure. What stands behind that one has no effect at all, and if there is none, the list has the
value of its last statement.

## Main definitions

* `Flow.resume` — a list that goes on where the statements in front of it have handed over.
* `Expr.runList` — the statements of a list, run in the current frame.
* `Gap`, `Expr.nest` — a list with a gap, and a statement in the innermost of nested blocks.
* `Gap.Arrives` — the statements in front of the gaps lead to the innermost one.

## Main results

* `Meaning.runFrom_append`, `Expr.runList_append` — two lists in turn.
* `Expr.play_step_nest` — a return in nested blocks ends them all.
* `Expr.play_answer_eq_step` — an expression has the value with which it ends as a statement.
* `statements_end_at_first_return` — all of these together.
-/

namespace DiceCalculus

variable {ρ μ : Type} [Scalar ρ] {σ : Type}

/-! ## Lists in turn -/

/-- Runs statements where those in front of them have handed over. A list that has ended does not go
on. -/
def Flow.resume {m : Mode} (xs : List (Meaning ρ μ)) :
    Flow (m.Answer ρ μ) → Run ρ μ (Flow (m.Answer ρ μ))
  | .next a => Meaning.runFrom m a xs
  | .ended a => return .ended a

namespace Meaning

variable (m : Mode) (last : Option (m.Answer ρ μ)) (xs ys : List (Meaning ρ μ))

/-- A statement and then others. -/
lemma runFrom_cons (x : Meaning ρ μ) : runFrom m last (x :: xs) = x.step m >>= Flow.resume xs := by
  refine congrArg (x.step m >>= ·) (funext fun flow => ?_)
  cases flow <;> rfl

/-- Two lists of statements in turn. -/
theorem runFrom_append : runFrom m last (xs ++ ys) = runFrom m last xs >>= Flow.resume ys := by
  induction xs generalizing last with
  | nil => exact (pure_bind (Flow.next last) (Flow.resume ys)).symm
  | cons x xs ih =>
    rw [List.cons_append, runFrom_cons, runFrom_cons, bind_assoc]
    refine congrArg (x.step m >>= ·) (funext fun flow => ?_)
    cases flow with
    | next a => exact ih a
    | ended a => exact (pure_bind (Flow.ended a) (Flow.resume ys)).symm

end Meaning

namespace Expr

variable [Mass μ] (m : Mode) (fuel : Nat)

/-- The statements of a list, run in the current frame. -/
def runList (es : List (Expr ρ)) : Run ρ μ (Flow (m.Answer ρ μ)) :=
  Meaning.runAll m (es.map (meaning fuel))

/-- The meanings of the statements of a list. -/
lemma meaning_block (es : List (Expr ρ)) :
    (Expr.block es).meaning fuel = (.block (es.map (meaning fuel)) : Meaning ρ μ) := by
  obtain ⟨enter, henter⟩ := exists_meaning_eq_denote (ρ := ρ) (μ := μ) fuel
  simp only [henter, denote, denoteAll_eq_map]
  exact congrArg Meaning.block (List.map_congr_left fun e _ => (henter e).symm)

/-- A list in two parts. -/
theorem runList_append (es es' : List (Expr ρ)) : (runList m fuel (es ++ es') : Run ρ μ _) =
    runList m fuel es >>= Flow.resume (es'.map (meaning fuel)) := by
  unfold runList Meaning.runAll
  rw [List.map_append, Meaning.runFrom_append]

variable {m fuel} [Roller σ] {es es' : List (Expr ρ)} {s t : Session ρ μ} {r r' : σ}

/-- A list whose beginning ends with a value does not go on. -/
lemma play_runList_append_of_ended {a : m.Answer ρ μ}
    (h : (runList m fuel es).play s r = (.ok (.ended a), t, r')) :
    (runList m fuel (es ++ es')).play s r = (.ok (.ended a), t, r') := by
  rw [runList_append]
  exact Run.play_bind_ok h _

/-- A list whose beginning fails does not go on. -/
lemma play_runList_append_of_error {e : Stop ρ μ}
    (h : (runList m fuel es).play s r = (.error e, t, r')) :
    (runList m fuel (es ++ es')).play s r = (.error e, t, r') := by
  rw [runList_append]
  exact Run.play_bind_error h _

/-- A list whose beginning hands over goes on with the rest. -/
lemma play_runList_append_of_next {a : Option (m.Answer ρ μ)}
    (h : (runList m fuel es).play s r = (.ok (.next a), t, r')) :
    (runList m fuel (es ++ es')).play s r =
      (Meaning.runFrom m a (es'.map (meaning fuel))).play t r' := by
  rw [runList_append]
  exact Run.play_bind_ok h _

/-- A list whose beginning hands over to one last statement. -/
lemma play_runList_concat {a : Option (m.Answer ρ μ)} {e : Expr ρ}
    (h : (runList m fuel es).play s r = (.ok (.next a), t, r')) :
    (runList m fuel (es ++ [e])).play s r = ((e.meaning fuel).step m).play t r' := by
  rw [play_runList_append_of_next h, List.map_singleton, Meaning.runFrom_cons, Run.play_bind]
  rcases ((e.meaning fuel).step m).play t r' with ⟨_ | _ | _, _, _⟩ <;> rfl

/-! ## Statements in nested blocks -/

variable (m fuel) in
/-- A block as a statement runs its list in a fresh frame. -/
lemma play_step_block (es : List (Expr ρ)) (s : Session ρ μ) (r : σ) :
    (((Expr.block es).meaning fuel).step m).play s r =
      (((runList m fuel es).play (s.enter s.scope) r).1,
        ((runList m fuel es).play (s.enter s.scope) r).2.1.inScope s.scope,
        ((runList m fuel es).play (s.enter s.scope) r).2.2) := by
  rw [meaning_block]
  exact Run.play_inFreshFrame r (runList m fuel es) s

/-- A statement ends in the scope in which it began. -/
lemma scope_play_step (e : Expr ρ) :
    (((e.meaning fuel).step m).play s r).2.1.scope = s.scope := by
  have hscope := (Plan.isTidy_trace (Plan.isTidy_traceBody fuel)
    ((e.plans : Plans ρ μ).step m) s r).scope
  have houtcome := Question.outcome_trace (.step m) fuel e s r
  exact (congrArg (·.2.1.scope) houtcome).symm.trans hscope

end Expr

/-- A list of statements with a gap in it. -/
structure Gap (ρ : Type) where
  /-- The statements in front of the gap. -/
  before : List (Expr ρ)
  /-- The statements behind the gap. -/
  behind : List (Expr ρ)

/-- The list with a statement in its gap. -/
def Gap.fill (g : Gap ρ) (e : Expr ρ) : List (Expr ρ) := g.before ++ e :: g.behind

/-- A statement in nested blocks, which are listed from the outside in. -/
def Expr.nest : List (Gap ρ) → Expr ρ → Expr ρ
  | [], e => e
  | g :: gs, e => .block (g.fill (nest gs e))

section Nest

variable [Mass μ] [Roller σ] {m : Mode} {fuel : Nat}

/-- The statements in front of the gaps of nested blocks hand over, one list after the other, and
lead to the innermost gap. -/
inductive Gap.Arrives (m : Mode) (fuel : Nat) :
    List (Gap ρ) → Session ρ μ → σ → Session ρ μ → σ → Prop
  | here (s : Session ρ μ) (r : σ) : Arrives m fuel [] s r s r
  | inside {g : Gap ρ} {gs : List (Gap ρ)} {s s₁ t : Session ρ μ} {r r₁ r' : σ}
    {a : Option (m.Answer ρ μ)}
    (before : (Expr.runList m fuel g.before).play (s.enter s.scope) r = (.ok (.next a), s₁, r₁))
    (rest : Arrives m fuel gs s₁ r₁ t r') : Arrives m fuel (g :: gs) s r t r'

variable {gs : List (Gap ρ)} {e : Expr ρ} {s t u : Session ρ μ} {r r' r'' : σ} {v : m.Answer ρ μ}

/-- A list ends if the statement in its gap does, whatever stands behind it. -/
lemma Gap.play_runList_fill {g : Gap ρ} {a : Option (m.Answer ρ μ)}
    (hbefore : (Expr.runList m fuel g.before).play s r = (.ok (.next a), t, r'))
    (he : ((e.meaning fuel).step m).play t r' = (.ok (.ended v), u, r'')) :
    (Expr.runList m fuel (g.fill e)).play s r = (.ok (.ended v), u, r'') := by
  have hconcat : (Expr.runList m fuel (g.before ++ [e])).play s r = (.ok (.ended v), u, r'') :=
    (Expr.play_runList_concat hbefore).trans he
  have hfill : g.fill e = g.before ++ [e] ++ g.behind := by simp [fill]
  rw [hfill]
  exact Expr.play_runList_append_of_ended hconcat

/-- A return at the innermost gap of nested blocks ends them all. Nothing but the scope is changed on
the way out.

**Proof sketch.** By induction over the way in: each list ends because the statement in its gap does,
and a block that is a statement ends as its list does. -/
theorem Expr.play_step_nest (harrives : Gap.Arrives m fuel gs s r t r')
    (he : ((e.meaning fuel).step m).play t r' = (.ok (.ended v), u, r'')) :
    (((nest gs e).meaning fuel).step m).play s r = (.ok (.ended v), u.inScope s.scope, r'') := by
  induction harrives with
  | here s r =>
    have hscope : (((e.meaning fuel).step m).play s r).2.1.scope = s.scope := scope_play_step e
    rw [he] at hscope
    rw [nest, he, ← hscope]
    rfl
  | @inside g gs s s₁ t r r₁ r' a before rest ih =>
    rw [nest, play_step_block, Gap.play_runList_fill before (ih he)]
    rfl

end Nest

/-! ## The value of a list -/

namespace Expr

variable [Mass μ] [Roller σ] {m : Mode} {fuel : Nat} {s t : Session ρ μ} {r r' : σ}

/-- The value of a block is found by running its list in a fresh frame. -/
lemma play_answer_block_eq (es : List (Expr ρ)) (s : Session ρ μ) (r : σ) :
    (((Expr.block es).meaning fuel).answer m).play s r =
      (((runList m fuel es).play (s.enter s.scope) r).1.bind (·.result.mapError .fault),
        ((runList m fuel es).play (s.enter s.scope) r).2.1.inScope s.scope,
        ((runList m fuel es).play (s.enter s.scope) r).2.2) := by
  have hresult : (Meaning.resultOf m (es.map (meaning fuel))).play (s.enter s.scope) r =
      (((runList m fuel es).play (s.enter s.scope) r).1.bind (·.result.mapError .fault),
        ((runList m fuel es).play (s.enter s.scope) r).2) := by
    refine (Run.play_bind r (runList m fuel es) _ _).trans ?_
    rcases (runList m fuel es).play (s.enter s.scope) r with ⟨_ | flow, t, r'⟩
    · rfl
    · exact Run.play_of_done r' (Run.exec_ofExcept flow.result t)
  have hblock : ((Expr.block es).meaning fuel).answer m =
      (Run.inFreshFrame (Meaning.resultOf m (es.map (meaning fuel))) : Run ρ μ _) := by
    rw [meaning_block]
    cases m <;> rfl
  rw [hblock, Run.play_inFreshFrame, hresult]

/-- The value of a block whose list hands over or ends. -/
lemma play_answer_block {es : List (Expr ρ)} {flow : Flow (m.Answer ρ μ)}
    (h : (runList m fuel es).play (s.enter s.scope) r = (.ok flow, t, r')) :
    (((Expr.block es).meaning fuel).answer m).play s r =
      (flow.result.mapError .fault, t.inScope s.scope, r') := by
  rw [play_answer_block_eq, h]
  rfl

/-- An expression that is no block hands its value over as a statement. -/
lemma step_eq_answer {e : Expr ρ} (he : e.kind.capability ≠ .statement) (hblock : e.kind ≠ .block) :
    (e.meaning fuel).step m =
      (do return .next (some (← (e.meaning fuel).answer m)) : Run ρ μ (Flow (m.Answer ρ μ))) := by
  obtain ⟨enter, henter⟩ := exists_meaning_eq_denote (ρ := ρ) (μ := μ) fuel
  rw [henter]
  cases e with
  | assign name x => exact absurd rfl he
  | output x => exact absurd rfl he
  | declare signature body => exact absurd rfl he
  | block es => exact absurd rfl hblock
  | call shape arguments => cases m <;> rw [denote_call] <;> rfl
  | _ => cases m <;> rfl

/-- Of the statements that are no expressions, assignments and declarations hand over, and they do so
without a value. -/
lemma eq_none_of_statement {e : Expr ρ} (he : e.kind.capability = .statement)
    {a : Option (m.Answer ρ μ)} (h : ((e.meaning fuel).step m).play s r = (.ok (.next a), t, r')) :
    a = none ∧ (e.kind = .assignment ∨ e.kind = .declaration) := by
  obtain ⟨enter, henter⟩ := exists_meaning_eq_denote (ρ := ρ) (μ := μ) fuel
  rw [henter] at h
  cases e with
  | assign name x =>
    obtain ⟨b, u, r₁, -, h⟩ := (Run.play_bind_eq_ok_iff r).1 h
    cases h
    exact ⟨rfl, .inl rfl⟩
  | output x =>
    obtain ⟨b, u, r₁, -, h⟩ := (Run.play_bind_eq_ok_iff r).1 h
    cases h
  | declare signature body =>
    obtain ⟨b, u, r₁, -, h⟩ := (Run.play_bind_eq_ok_iff r).1 h
    cases h
    exact ⟨rfl, .inr rfl⟩
  | binary op left right => cases op <;> cases he
  | _ => cases he

/-- An expression has the value with which it hands over or ends as a statement, and the same effect. -/
theorem play_answer_eq_step {e : Expr ρ} (he : e.kind.capability ≠ .statement) (s : Session ρ μ) (r : σ) :
    ((e.meaning fuel).answer m).play s r =
      ((((e.meaning fuel).step m).play s r).1.bind (·.result.mapError .fault),
        (((e.meaning fuel).step m).play s r).2) := by
  by_cases hblock : e.kind = .block
  · obtain ⟨es, rfl⟩ : ∃ es, e = .block es := by
      cases e with
      | block es => exact ⟨es, rfl⟩
      | binary op left right => cases op <;> cases hblock
      | _ => cases hblock
    rw [play_answer_block_eq, play_step_block]
  · rw [step_eq_answer he hblock, Run.play_bind]
    rcases ((e.meaning fuel).answer m).play s r with ⟨_ | v, t, r'⟩ <;> rfl

/-- An expression that hands over as a statement has the value that it hands over. -/
lemma play_answer_of_step {e : Expr ρ} (he : e.kind.capability ≠ .statement)
    {a : Option (m.Answer ρ μ)} (h : ((e.meaning fuel).step m).play s r = (.ok (.next a), t, r')) :
    ((e.meaning fuel).answer m).play s r = ((Flow.next a).result.mapError .fault, t, r') := by
  rw [play_answer_eq_step he, h]
  rfl

/-- A statement that hands over has no value exactly if it is an assignment, a declaration or a block
whose list has none. -/
lemma eq_none_iff {e : Expr ρ} {a : Option (m.Answer ρ μ)}
    (h : ((e.meaning fuel).step m).play s r = (.ok (.next a), t, r')) :
    a = none ↔ e.kind = .assignment ∨ e.kind = .declaration ∨ e.kind = .block ∧
      ((e.meaning fuel).answer m).play s r = (.error (.fault .noValue), t, r') := by
  constructor
  · rintro rfl
    by_cases he : e.kind.capability = .statement
    · exact (eq_none_of_statement he h).2.elim .inl (.inr ∘ .inl)
    · by_cases hblock : e.kind = .block
      · exact .inr (.inr ⟨hblock, play_answer_of_step he h⟩)
      · rw [step_eq_answer he hblock] at h
        obtain ⟨v, u, r₁, -, h⟩ := (Run.play_bind_eq_ok_iff r).1 h
        cases h
  · rintro (hkind | hkind | ⟨hkind, hvalue⟩)
    · exact (eq_none_of_statement (by rw [hkind]; rfl) h).1
    · exact (eq_none_of_statement (by rw [hkind]; rfl) h).1
    · rw [play_answer_of_step (by rw [hkind]; decide) h] at hvalue
      cases a with
      | none => rfl
      | some v => cases hvalue

/-- A list of which no statement returns hands over as its last statement does. -/
lemma play_runList_concat_iff {es : List (Expr ρ)} {e : Expr ρ} {a : Option (m.Answer ρ μ)} :
    (runList m fuel (es ++ [e])).play s r = (.ok (.next a), t, r') ↔ ∃ b u r₁,
      (runList m fuel es).play s r = (.ok (.next b), u, r₁) ∧
        ((e.meaning fuel).step m).play u r₁ = (.ok (.next a), t, r') := by
  constructor
  · intro h
    rcases hes : (runList m fuel es).play s r with ⟨stop | b | v, u, r₁⟩
    · rw [play_runList_append_of_error hes] at h
      cases h
    · rw [play_runList_concat hes] at h
      exact ⟨b, u, r₁, rfl, h⟩
    · rw [play_runList_append_of_ended hes] at h
      cases h
  · rintro ⟨b, u, r₁, hes, he⟩
    exact (play_runList_concat hes).trans he

end Expr

/-- Statement lists stop exactly at the first return. In either mode, from every session and with dice
from any roller (so also from one that records what it is asked for), with any amount of fuel:

* If the beginning of a list ends with a value, the list ends with that value in the same session, and
  if its beginning fails, the list fails so, whatever stands behind.
* A return at the innermost place of nested blocks, each a statement of the one around it, ends them
  all with its value. Nothing but the scope is restored on the way out.
* A list without statements has no value. If none of its statements returns or fails, a block has the
  value of its last statement. It has none exactly if that is an assignment, a declaration or a block
  without a value.

**Proof sketch.** A list is run statement by statement, so that a list in two parts is the first one
and, unless this has ended or failed, the second one behind it. A nested block passes on the end
that it reaches. The answer of a block is that of its list, and whether the last statement has a
value is decided by its kind. -/
theorem statements_end_at_first_return [Mass μ] [Roller σ] (m : Mode) (fuel : Nat) (s : Session ρ μ)
    (r : σ) :
    (∀ (before behind : List (Expr ρ)) (e : Expr ρ) (v : m.Answer ρ μ) (t : Session ρ μ) (r' : σ),
      (Expr.runList m fuel (before ++ [e])).play s r = (.ok (.ended v), t, r') →
        (Expr.runList m fuel (before ++ [e] ++ behind)).play s r = (.ok (.ended v), t, r')) ∧
    (∀ (before behind : List (Expr ρ)) (stop : Stop ρ μ) (t : Session ρ μ) (r' : σ),
      (Expr.runList m fuel before).play s r = (.error stop, t, r') →
        (Expr.runList m fuel (before ++ behind)).play s r = (.error stop, t, r')) ∧
    (∀ (gs : List (Gap ρ)) (e : Expr ρ) (v : m.Answer ρ μ) (t u : Session ρ μ) (r' r'' : σ),
      Gap.Arrives m fuel gs s r t r' →
      ((e.meaning fuel).step m).play t r' = (.ok (.ended v), u, r'') →
        (((Expr.nest gs e).meaning fuel).step m).play s r =
          (.ok (.ended v), u.inScope s.scope, r'')) ∧
    (((Expr.block []).meaning fuel).answer m).play s r =
      (.error (.fault .noValue), (s.enter s.scope).inScope s.scope, r) ∧
    ∀ (before : List (Expr ρ)) (e : Expr ρ) (a : Option (m.Answer ρ μ)) (u : Session ρ μ) (r'' : σ),
      (Expr.runList m fuel (before ++ [e])).play (s.enter s.scope) r = (.ok (.next a), u, r'') →
        (((Expr.block (before ++ [e])).meaning fuel).answer m).play s r =
          ((match a with
            | some v => .ok v
            | none => .error (.fault .noValue)), u.inScope s.scope, r'') ∧
        ∃ b t r', (Expr.runList m fuel before).play (s.enter s.scope) r = (.ok (.next b), t, r') ∧
          ((e.meaning fuel).step m).play t r' = (.ok (.next a), u, r'') ∧
          (a = none ↔ e.kind = .assignment ∨ e.kind = .declaration ∨ e.kind = .block ∧
            ((e.meaning fuel).answer m).play t r' = (.error (.fault .noValue), u, r'')) ∧
          ∀ v, a = some v → ((e.meaning fuel).answer m).play t r' = (.ok v, u, r'') := by
  refine ⟨fun before behind e v t r' => Expr.play_runList_append_of_ended,
    fun before behind stop t r' => Expr.play_runList_append_of_error,
    fun gs e v t u r' r'' => Expr.play_step_nest, ?_, fun before e a u r'' h => ⟨?_, ?_⟩⟩
  · have hempty : (Expr.runList m fuel []).play (s.enter s.scope) r =
        (.ok (.next none), s.enter s.scope, r) := rfl
    exact Expr.play_answer_block hempty
  · rw [Expr.play_answer_block h]
    cases a <;> rfl
  · obtain ⟨b, t, r', hbefore, he⟩ := Expr.play_runList_concat_iff.1 h
    refine ⟨b, t, r', hbefore, he, Expr.eq_none_iff he, ?_⟩
    rintro v rfl
    refine Expr.play_answer_of_step (fun hstatement => ?_) he
    cases (Expr.eq_none_of_statement hstatement he).1

/-- Lists that roll a die and then return a number or fail, with more behind, a return from a block in a
block, and blocks that end with a number and with an assignment. -/
theorem statements_end_at_first_return_of_roll :
    let number (n : Int32) : Expr (WithBot ℚ) := .literal (.int n)
    let roll : Expr (WithBot ℚ) := .dice (number 1) (number 6)
    let unbound : Expr (WithBot ℚ) := .var "unbound"
    let gs : List (Gap (WithBot ℚ)) := [⟨[roll], [unbound]⟩, ⟨[], [roll, roll]⟩]
    let s : Session (WithBot ℚ) ℚ := .start ⟨none, some 1, none, 0⟩
    let r : Recorded Stepper := .ofState ⟨3, 1⟩
    let rolled : Recorded Stepper := ⟨⟨4, 1⟩, [(1, 6)]⟩
    let five : Value (WithBot ℚ) ℚ := .number (.int 5)
    (Expr.runList .sample 1 ([roll] ++ [.output (number 5)])).play s r =
        (.ok (.ended five), { s with spent := 1 }, rolled) ∧
      (Expr.runList .sample 1 ([roll] ++ [.output (number 5)] ++ [unbound])).play s r =
        (.ok (.ended five), { s with spent := 1 }, rolled) ∧
      (Expr.runList .sample 1 ([roll, unbound] ++ [roll])).play s r =
        (.error (.fault (.unboundVariable "unbound")), { s with spent := 1 }, rolled) ∧
      (∃ u, (((Expr.nest gs (.output (number 5))).meaning 1).step .sample).play s r =
        (.ok (.ended five), u, rolled)) ∧
      (∃ u, (((Expr.block ([roll] ++ [number 5])).meaning 1).answer .sample).play s r =
        (.ok five, u, rolled)) ∧
      ∃ u, (((Expr.block ([roll] ++ [.assign "x" roll])).meaning 1).answer .sample).play s r =
        (.error (.fault .noValue), u, ⟨⟨5, 1⟩, [(1, 6), (1, 6)]⟩) := by
  intro number roll unbound gs s r rolled five
  obtain ⟨hended, hfailed, hnested, -, hvalue⟩ :=
    statements_end_at_first_return (ρ := WithBot ℚ) (μ := ℚ) .sample 1 s r
  exact ⟨rfl, hended _ _ _ _ _ _ rfl, hfailed _ _ _ _ _ rfl,
    ⟨_, hnested gs _ _ _ _ _ _ (.inside rfl (.inside rfl (.here _ _))) rfl⟩,
    ⟨_, (hvalue [roll] (number 5) (some five) _ _ rfl).1⟩,
    ⟨_, (hvalue [roll] (.assign "x" roll) none _ _ rfl).1⟩⟩

end DiceCalculus
