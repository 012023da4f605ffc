import DiceCalculus.Proofs.Branches
import DiceCalculus.Proofs.Dispatch
import DiceCalculus.Proofs.Statements

set_option autoImplicit false
set_option relaxedAutoImplicit false

/-!
# Outputs

An `output` ends the statement lists around it, from the innermost one outwards, as far as the blocks are
statements themselves. In a function body or in a statement that a session runs, these are all of them,
unless it stands in the branch of an `if`: that branch is a block that is evaluated for its value. The
`if` then has the value of the output, and the statements behind it run on.

## Main definitions

* `Gap.Outputs` — an output in nested blocks is reached, and what it puts out has a value.

## Main results

* `Closure.play_call_of_bind` — a call runs the body in the frame of its activation.
* `Gap.Outputs.play_step`, `Gap.Outputs.play_runList` — the blocks around an output end.
* `Gap.Outputs.play_call` — a call ends with the output in the body.
* `Gap.Outputs.play_step_branch` — an `if` has the value of the output in its branch.
* `output_ends_enclosing_statements` — all of these together.
-/

namespace DiceCalculus

variable {ρ μ σ : Type} [Scalar ρ] [Mass μ] [Roller σ]

/-- A call whose arguments have been evaluated comes to what its body comes to in the frame of the
activation, and then returns to the scope and the depth of the caller. -/
theorem Closure.play_call_of_bind {c : Closure ρ} {shape : Shape} {args : Slots (Expr ρ)} {m : Mode}
    {fuel : Nat} {s t : Session ρ μ} {r r' : σ} {bs : List (String × Binding ρ μ)}
    (hfind : s.registry.find? shape = some (.user c))
    (hargs : (bind c.signature (args.map (·.meaning fuel)) m).play s r = (.ok bs, t, r'))
    (hdepth : t.limits.maxDepth.filter (· ≤ t.depth) = none) :
    (((Expr.call shape args).meaning fuel).answer m).play s r =
      let p := (Plan.enterBody fuel c.body m).play
        (((t.enter c.scope).assignAll bs).down (t.enter c.scope).scope) r'
      (p.1, p.2.1.up t.scope, p.2.2) := by
  have hactivation := Run.exec_activation c.scope bs (Plan.enterBody fuel c.body m) t
  rw [hdepth] at hactivation
  have hcall : (((Expr.call shape args).meaning fuel).answer m).play s r =
      (c.activate (Plan.enterBody fuel) (args.map (·.meaning fuel)) m).play s r := by
    rw [Plan.meaning_call, Meaning.answer_call,
      Run.play_bind_ok (Run.play_of_done r ((Run.exec_function shape s).trans (by rw [hfind])))]
    rfl
  rw [hcall, activate, Run.play_bind_ok hargs, Run.play_of_bind_done (f := (·.up t.scope)) r' hactivation]

/-- An output in the innermost of nested blocks is reached, and what it puts out has a value. -/
def Gap.Outputs (m : Mode) (fuel : Nat) (gs : List (Gap ρ)) (x : Expr ρ) (s : Session ρ μ) (r : σ)
    (v : m.Answer ρ μ) (u : Session ρ μ) (r' : σ) : Prop :=
  ∃ t r₁, Gap.Arrives m fuel gs s r t r₁ ∧ ((x.meaning fuel).answer m).play t r₁ = (.ok v, u, r')

namespace Gap.Outputs

variable {m : Mode} {fuel : Nat} {g : Gap ρ} {gs : List (Gap ρ)} {x : Expr ρ} {s s₁ u : Session ρ μ}
  {r r₁ r' : σ} {v : m.Answer ρ μ} {a : Option (m.Answer ρ μ)}

/-- An output ends the blocks around it, all of which are statements. -/
theorem play_step (h : Gap.Outputs m fuel gs x s r v u r') :
    (((Expr.nest gs (.output x)).meaning fuel).step m).play s r =
      (.ok (.ended v), u.inScope s.scope, r') := by
  obtain ⟨t, r₁, harrives, hx⟩ := h
  refine Expr.play_step_nest harrives ?_
  obtain ⟨enter, henter⟩ := Expr.exists_meaning_eq_denote (ρ := ρ) (μ := μ) fuel
  rw [henter] at hx ⊢
  exact Run.play_bind_ok hx _

/-- An output ends the list around it and the blocks around it in there. -/
theorem play_runList
    (hbefore : (Expr.runList m fuel g.before).play s r = (.ok (.next a), s₁, r₁))
    (h : Gap.Outputs m fuel gs x s₁ r₁ v u r') :
    (Expr.runList m fuel (g.fill (Expr.nest gs (.output x)))).play s r =
      (.ok (.ended v), u.inScope s₁.scope, r') :=
  Gap.play_runList_fill hbefore h.play_step

/-- A call ends with the value of an output in the body. -/
theorem play_call {c : Closure ρ} {shape : Shape} {args : Slots (Expr ρ)} {s₀ : Session ρ μ} {r₀ : σ}
    {bs : List (String × Binding ρ μ)} (hbody : c.body = g.fill (Expr.nest gs (.output x)))
    (hfind : s.registry.find? shape = some (.user c))
    (hargs : (Closure.bind c.signature (args.map (·.meaning (fuel + 1))) m).play s r = (.ok bs, s₀, r₀))
    (hdepth : s₀.limits.maxDepth.filter (· ≤ s₀.depth) = none)
    (hbefore : (Expr.runList m fuel g.before).play
      (((s₀.enter c.scope).assignAll bs).down (s₀.enter c.scope).scope) r₀ = (.ok (.next a), s₁, r₁))
    (h : Gap.Outputs m fuel gs x s₁ r₁ v u r') :
    (((Expr.call shape args).meaning (fuel + 1)).answer m).play s r = (.ok v, u.up s₀.scope, r') := by
  have hresult : (Plan.enterBody (fuel + 1) c.body m).play
      (((s₀.enter c.scope).assignAll bs).down (s₀.enter c.scope).scope) r₀ =
      (.ok v, u.inScope s₁.scope, r') := by
    rw [hbody]
    exact (Run.play_bind_ok (play_runList hbefore h) _).trans rfl
  rw [c.play_call_of_bind hfind hargs hdepth, hresult]
  rfl

/-- A block that is evaluated for its value has that of an output in it. -/
lemma play_answer (h : Gap.Outputs m fuel (g :: gs) x s r v u r') :
    (((Expr.nest (g :: gs) (.output x)).meaning fuel).answer m).play s r =
      (.ok v, u.inScope s.scope, r') := by
  obtain ⟨t, r₁, _ | ⟨before, rest⟩, hx⟩ := h
  exact Expr.play_answer_block (play_runList before ⟨t, r₁, rest, hx⟩)

section Sample

variable {v : Value ρ μ}

/-- A statement that a session runs has the value of an output in it. -/
lemma play_run (h : Gap.Outputs .sample s.renewed.fuel gs x (s.renewed.inScope .global) r v u r') :
    (Session.run (Expr.nest gs (.output x))).play s r = (.ok (some v), u.inScope s.scope, r') := by
  have hstep : (Expr.nest gs (.output x)).step.play (s.renewed.inScope .global) r =
      (.ok (.ended v), u.inScope .global, r') :=
    (Question.play_ask (.step .sample) _ _ r).trans h.play_step
  have hwithin : (Run.within .global (Expr.nest gs (.output x)).step).play s.renewed r =
      (.ok (.ended v), u.inScope s.scope, r') := by
    rw [Run.play_within, hstep]
    rfl
  exact Run.play_bind_ok hwithin _

/-- An `if` with an output in the branch that its test chooses has the value of the output. It does not
end the list in which it stands. -/
theorem play_step_branch {test yes no : Expr ρ} {w : Value ρ μ} {n : Number ρ}
    (hbranch : s.registry.find? (Builtin.shape .branch) = some (.builtin .branch))
    (htest : (test.meaning fuel).value.play s r = (.ok w, s₁, r₁)) (hw : w.toNumber = .ok n)
    (hchosen : (if n.isZero then no else yes) = Expr.nest (g :: gs) (.output x))
    (h : Gap.Outputs .sample fuel (g :: gs) x s₁ r₁ v u r') :
    (((Expr.branch test yes no).meaning fuel).step .sample).play s r =
      (.ok (.next (some v)), u.inScope s₁.scope, r') := by
  have hvalue : ((Expr.branch test yes no).meaning fuel).value.play s r =
      (.ok v, u.inScope s₁.scope, r') := by
    rw [Expr.play_value_branch hbranch htest hw, ← apply_ite fun e : Expr ρ => (e.meaning fuel).value,
      hchosen]
    exact h.play_answer
  have hkind : (Expr.branch test yes no).kind = .call := rfl
  rw [Expr.step_eq_answer (by rw [hkind]; decide) (by rw [hkind]; decide)]
  exact Run.play_bind_ok hvalue _

end Sample

end Gap.Outputs

/-- An output ends the blocks around it that are statements, up to the body or the statement of the
session in which they stand, and what is behind it in any of them is not run.

* A call has the value of an output that is reached in nested blocks of the body.
* A statement that a session runs has the value of an output that is reached in nested blocks of it, and
  so has a block that a session evaluates.
* In the branch of an `if`, an output ends the blocks in that branch only: the `if` has the value of the
  output, and the statements behind it run on.

**Proof sketch.** The blocks around the output are opened from the inside out (`Gap.Outputs`). In a
body or a statement of a session the end of a list is passed on by each of them. The branch of an
`if` is evaluated for an answer, so that the end becomes a value there, and a list that has come to
a value goes on with what is behind. -/
theorem output_ends_enclosing_statements :
    (∀ (m : Mode) (fuel : Nat) (g : Gap ρ) (gs : List (Gap ρ)) (x : Expr ρ) (c : Closure ρ)
      (shape : Shape) (args : Slots (Expr ρ)) (bs : List (String × Binding ρ μ))
      (a : Option (m.Answer ρ μ)) (v : m.Answer ρ μ) (s s₀ s₁ u : Session ρ μ) (r r₀ r₁ r' : σ),
      c.body = g.fill (Expr.nest gs (.output x)) → s.registry.find? shape = some (.user c) →
      (Closure.bind c.signature (args.map (·.meaning (fuel + 1))) m).play s r = (.ok bs, s₀, r₀) →
      s₀.limits.maxDepth.filter (· ≤ s₀.depth) = none →
      (Expr.runList m fuel g.before).play
        (((s₀.enter c.scope).assignAll bs).down (s₀.enter c.scope).scope) r₀ = (.ok (.next a), s₁, r₁) →
      Gap.Outputs m fuel gs x s₁ r₁ v u r' →
        (((Expr.call shape args).meaning (fuel + 1)).answer m).play s r = (.ok v, u.up s₀.scope, r')) ∧
    (∀ (g : Gap ρ) (gs : List (Gap ρ)) (x : Expr ρ) (v : Value ρ μ) (s u : Session ρ μ) (r r' : σ),
      (Gap.Outputs .sample s.renewed.fuel gs x (s.renewed.inScope .global) r v u r' →
        (Session.run (Expr.nest gs (.output x))).play s r = (.ok (some v), u.inScope s.scope, r')) ∧
      (Gap.Outputs .sample s.renewed.fuel (g :: gs) x s.renewed r v u r' →
        (Session.evaluate (Expr.nest (g :: gs) (.output x))).play s r =
          (.ok v, u.inScope s.scope, r'))) ∧
    ∀ (fuel : Nat) (g : Gap ρ) (gs : List (Gap ρ)) (x test yes no : Expr ρ) (n : Number ρ)
      (v w : Value ρ μ) (s s₁ u : Session ρ μ) (r r₁ r' : σ),
      s.registry.find? (Builtin.shape .branch) = some (.builtin .branch) →
      (test.meaning fuel).value.play s r = (.ok w, s₁, r₁) → w.toNumber = .ok n →
      (if n.isZero then no else yes) = Expr.nest (g :: gs) (.output x) →
      Gap.Outputs .sample fuel (g :: gs) x s₁ r₁ v u r' →
        (((Expr.branch test yes no).meaning fuel).step .sample).play s r =
          (.ok (.next (some v)), u.inScope s₁.scope, r') ∧
        ∀ (before behind : List (Expr ρ)) (a : Option (Value ρ μ)) (s₀ : Session ρ μ) (r₀ : σ),
          (Expr.runList .sample fuel before).play s₀ r₀ = (.ok (.next a), s, r) →
            (Expr.runList .sample fuel (before ++ [Expr.branch test yes no] ++ behind)).play s₀ r₀ =
              (Meaning.runFrom .sample (some v) (behind.map (·.meaning fuel))).play
                (u.inScope s₁.scope) r' := by
  refine ⟨?_, fun g gs x v s u r r' => ⟨fun h => h.play_run, fun h => ?_⟩, ?_⟩
  · intro m fuel g gs x c shape args bs a v s s₀ s₁ u r r₀ r₁ r' hbody hfind hargs hdepth hbefore h
    exact h.play_call hbody hfind hargs hdepth hbefore
  · exact (Question.play_ask .value _ s.renewed r).trans h.play_answer
  · intro fuel g gs x test yes no n v w s s₁ u r r₁ r' hbranch htest hw hchosen h
    have hstep := h.play_step_branch hbranch htest hw hchosen
    refine ⟨hstep, fun before behind a s₀ r₀ hbefore => ?_⟩
    exact Expr.play_runList_append_of_next ((Expr.play_runList_concat hbefore).trans hstep)

/-- A function returns a number from a block in a block, with a variable that is not bound behind each;
a statement that a session runs, and a block that it evaluates, do so too. From the branch of an `if` the
number is not returned: the list has the value of the statement behind the `if`.

**Proof sketch.** The statements before the output are literals, so that it is reached by
computation in each of the nested blocks. The parts of the theorem are applied to the call, the
statements and the `if`. -/
theorem output_ends_enclosing_statements_not_conditionals :
    let number (n : Int32) : Expr (WithBot ℚ) := .literal (.int n)
    let g : Gap (WithBot ℚ) := ⟨[number 1], [.var "unbound"]⟩
    let f : Closure (WithBot ℚ) := ⟨⟨"f", .ofList []⟩, g.fill (Expr.nest [g] (.output (number 5))), .global⟩
    let s : Session (WithBot ℚ) ℚ := .start ⟨none, some 1, none, 0⟩
    let t : Session (WithBot ℚ) ℚ := { s with registry := s.registry.insert f.signature.shape (.user f) }
    let r : Stepper := ⟨1, 1⟩
    let five : Value (WithBot ℚ) ℚ := .number (.int 5)
    let branch := Expr.branch (number 1) (.block [.output (number 5)]) (number 0)
    (∃ u r', (((Expr.call f.signature.shape (.ofList [])).meaning 1).answer .sample).play t r =
      (.ok five, u, r')) ∧
    (∃ u r', (Session.run (Expr.nest [g, g] (.output (number 5)))).play s r = (.ok (some five), u, r')) ∧
    (∃ u r', (Session.evaluate (Expr.nest [g, g] (.output (number 5)))).play s r = (.ok five, u, r')) ∧
    ((branch.meaning 0).step .sample).play s r =
      (.ok (.next (some five)), (s.enter s.scope).inScope s.scope, r) ∧
    (Expr.runList .sample 0 [branch, number 7]).play s r =
      (.ok (.next (some (.number (.int 7)))), (s.enter s.scope).inScope s.scope, r) := by
  intro number g f s t r five branch
  obtain ⟨hcall, hstatement, hconditional⟩ :=
    output_ends_enclosing_statements (ρ := WithBot ℚ) (μ := ℚ) (σ := Stepper)
  have hfind : t.registry.find? f.signature.shape = some (.user f) :=
    (Dictionary.find?_insert ..).trans (if_pos rfl)
  have hnested : Gap.Outputs (μ := ℚ) .sample 0 [⟨[], []⟩] (number 5) s r five (s.enter s.scope) r :=
    ⟨_, _, .inside rfl (.here _ _), rfl⟩
  obtain ⟨hstep, hlist⟩ := hconditional 0 ⟨[], []⟩ [] (number 5) (number 1) _ (number 0) (.int 1) five
    (.number (.int 1)) s s _ r r r (Registry.hasBuiltins_standard .branch) rfl rfl rfl hnested
  have hreturned := hcall .sample 0 g [g] (number 5) f _ (.ofList []) [] _ five t t _ _ r r _ _ rfl hfind
    rfl rfl rfl ⟨_, _, .inside rfl (.here _ _), rfl⟩
  have hrun := (hstatement g [g, g] (number 5) five s _ r _).1
    ⟨_, _, .inside rfl (.inside rfl (.here _ _)), rfl⟩
  have hevaluated := (hstatement g [g] (number 5) five s _ r _).2
    ⟨_, _, .inside rfl (.inside rfl (.here _ _)), rfl⟩
  exact ⟨⟨_, _, hreturned⟩, ⟨_, _, hrun⟩, ⟨_, _, hevaluated⟩, hstep, hlist [] [number 7] none s r rfl⟩

end DiceCalculus
