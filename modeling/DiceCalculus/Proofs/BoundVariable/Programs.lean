import DiceCalculus.Proofs.BoundVariable.Draws

set_option autoImplicit false
set_option relaxedAutoImplicit false

/-!
# Programs that bind a variable

A block that assigns a variable before its last statement, and a call of a function of one argument,
store what they bind and go on with a body in which the variable can be read.

## Main results

* `Expr.exec_stored_exact` — what is stored in the variable.
* `Expr.answer_block_assign`, `Expr.exec_answer_call` — blocks and calls.
* `Formula.mean_fill_var` — a body in which the variable is read.
-/

namespace DiceCalculus

variable {ρ : Type} [Scalar ρ] {α β : Type}

open Outcome

/-! ## Statements with a value -/

namespace Meaning

variable {m : Mode} {x y : Meaning ρ ℚ}

/-- A list of one statement has the value with which the statement ends. -/
lemma resultOf_singleton (x : Meaning ρ ℚ) :
    resultOf m [x] = x.step m >>= fun flow => Run.ofExcept flow.result := by
  unfold resultOf runAll
  simp only [runFrom, bind_assoc]
  refine congrArg (x.step m >>= ·) (funext fun flow => ?_)
  cases flow <;> simp only [pure_bind]

/-- A list of one expression has its value. -/
lemma resultOf_of_step (hx : x.step m = x.answer m >>= fun a => pure (.next (some a))) :
    resultOf m [x] = x.answer m := by
  simp only [resultOf_singleton, hx, bind_assoc, pure_bind, Flow.result, Run.ofExcept, bind_pure]

/-- A block that assigns a variable goes on with its other statements. -/
lemma resultOf_assign (name : String) (x : Meaning ρ ℚ) (ys : List (Meaning ρ ℚ)) :
    resultOf m (assign name x :: ys) =
      x.stored m >>= fun b => Run.assign name b >>= fun _ => resultOf m ys := by
  simp only [resultOf, runAll, runFrom, assign, ofStatement, bind_assoc, pure_bind]

end Meaning

/-- What follows a computation in a fresh frame without reading the session may be done in that
frame. -/
lemma Run.inFreshFrame_bind_ofExcept (act : Run ρ ℚ α) (f : α → Except (Fault ρ ℚ) β) :
    (inFreshFrame act >>= fun a => ofExcept (f a)) = inFreshFrame (act >>= fun a => ofExcept (f a)) := by
  funext s
  show (inFreshFrame act >>= fun a => ofExcept (f a)).exec s = (inFreshFrame _).exec s
  simp only [exec_bind, exec_inFreshFrame, Sampler.bind_assoc, Sampler.done_bind]
  refine congrArg (_ >>= ·) (funext fun p => ?_)
  obtain ⟨e | a, t⟩ := p
  · rfl
  · simp only [exec_ofExcept, Sampler.done_bind]

/-- An expression that is no statement has its value as the only statement of a list. -/
lemma Expr.resultOf_denote (enter : Enter ρ ℚ) {e : Expr ρ}
    (he : e.kind.capability ≠ .statement) (m : Mode) :
    Meaning.resultOf m [e.denote enter] = (e.denote enter).answer m := by
  cases e with
  | block es =>
    rw [Meaning.resultOf_singleton]
    refine (Run.inFreshFrame_bind_ofExcept _ _).trans ?_
    cases m <;> rfl
  | call shape args =>
    obtain ⟨es, gs⟩ := args
    cases m <;> exact Meaning.resultOf_of_step rfl
  | assign name e => exact absurd rfl he
  | output e => exact absurd rfl he
  | declare signature body => exact absurd rfl he
  | literal x => cases m <;> exact Meaning.resultOf_of_step rfl
  | binary op left right => cases m <;> exact Meaning.resultOf_of_step rfl
  | dice count sides => cases m <;> exact Meaning.resultOf_of_step rfl
  | sequence es => cases m <;> exact Meaning.resultOf_of_step rfl
  | var name => cases m <;> exact Meaning.resultOf_of_step rfl

omit [Scalar ρ] in
/-- An operator between two expressions is no statement. -/
lemma Expr.isExpression_binary (op : Operator) (left right : Expr ρ) :
    (binary op left right).kind.capability ≠ .statement := by
  show (if op.isComparison then Kind.comparison else Kind.arithmetic).capability ≠ .statement
  split <;> decide

omit [Scalar ρ] in
/-- A formula with an expression at its places that is no statement is none. -/
lemma Formula.isExpression_fill {F : Formula ρ} {e : Expr ρ} (he : e.kind.capability ≠ .statement) :
    (F.fill e).kind.capability ≠ .statement := by
  cases F with
  | read => exact he
  | binary op left right => exact Expr.isExpression_binary op _ _
  | literal | dice | branch => exact nofun

/-- What has a law is no statement. -/
lemma Expr.isExpression_of_leads_law {enter : Enter ρ ℚ} {e : Expr ρ} {answers : Answers}
    {t t' : Session ρ ℚ} {l : Law ρ ℚ} (h : (e.denote enter).law.Leads answers t (.ok l) t') :
    e.kind.capability ≠ .statement := by
  cases e with
  | assign | output | declare =>
    obtain ⟨hl, -⟩ := Run.leads_fail.1 h
    cases hl
  | binary op left right => exact isExpression_binary op left right
  | _ => exact nofun

/-! ## What is stored in a variable -/

namespace Expr

variable {enter : Enter ρ ℚ} {t t' : Session ρ ℚ} {e : Expr ρ} {l : Law ρ ℚ}

/-- An expression with a law stores it, or passes on what holds it. -/
theorem exec_stored_exact (h : (e.denote enter).law.exec t = .done (.ok l, t')) :
    ∃ b, b.toLaw = .ok l ∧ ((e.denote enter).stored .exact).exec t = .done (.ok b, t') := by
  have hlaw {x : Meaning ρ ℚ} (hx : x.stored .exact = x.law >>= fun l => pure (.law l))
      (hl : x.law.exec t = .done (.ok l, t')) :
      ∃ b : Binding ρ ℚ, b.toLaw = .ok l ∧ (x.stored .exact).exec t = .done (.ok b, t') := by
    refine ⟨.law l, rfl, ?_⟩
    rw [hx, Run.exec_bind, hl, Sampler.done_bind]
    rfl
  cases e with
  | var name =>
    have hleads : ((Expr.var name).denote enter).law.Leads .any t (.ok l) t' :=
      (Run.leads_iff_of_done h).2 ⟨rfl, rfl⟩
    obtain ⟨b, t₁, hb, hl⟩ := Run.leads_bind_ok.1 hleads
    obtain ⟨hfound, rfl⟩ := Run.leads_lookup_ok.1 hb
    obtain ⟨hbl, rfl⟩ := Run.leads_ofExcept_ok.1 hl
    refine ⟨b, hbl, ?_⟩
    show (Run.lookup name).exec t' = _
    rw [Run.exec_lookup, hfound]
  | sequence es => cases h
  | call shape args =>
    obtain ⟨es, gs⟩ := args
    exact hlaw rfl h
  | _ => exact hlaw rfl h

end Expr

/-! ## Blocks -/

namespace Expr

variable (enter : Enter ρ ℚ) {body : Expr ρ} (hbody : body.kind.capability ≠ .statement) (m : Mode)

include hbody

/-- A block of one expression has its value in a fresh frame. -/
lemma answer_block : ((block [body]).denote enter).answer m =
    Run.inFreshFrame ((body.denote enter).answer m) := by
  rw [← resultOf_denote enter hbody]
  cases m <;> rfl

/-- A block that assigns a variable stores a value in it and goes on with the body. -/
theorem answer_block_assign (x : String) (e : Expr ρ) :
    ((block [assign x e, body]).denote enter).answer m =
      Run.inFreshFrame ((e.denote enter).stored m >>= fun b => Run.assign x b >>= fun _ =>
        (body.denote enter).answer m) := by
  rw [← resultOf_denote enter hbody, ← Meaning.resultOf_assign]
  cases m <;> rfl

end Expr

/-! ## Calls -/

/-- With any amount of fuel, bodies are not run at all, or they are run as lists of statements. -/
lemma Expr.exists_enter (fuel : Nat) : ∃ enter : Enter ρ ℚ,
    (∀ e : Expr ρ, e.meaning fuel = e.denote enter) ∧
      ((∀ body m, enter body m = throw .outOfFuel) ∨
        ∃ enter' : Enter ρ ℚ, ∀ body m, enter body m =
          Meaning.resultOf m (body.map (denote enter'))) := by
  cases fuel with
  | zero => exact ⟨_, fun _ => rfl, .inl fun _ _ => rfl⟩
  | succ fuel =>
    obtain ⟨enter', henter'⟩ := exists_meaning_eq_denote (ρ := ρ) (μ := ℚ) fuel
    refine ⟨_, fun _ => rfl, .inr ⟨enter', fun body m => ?_⟩⟩
    rw [← funext henter']

/-- The call of a function with one parameter stores the argument in a fresh frame inside the scope of
the function, and goes on with the body. -/
theorem Expr.exec_answer_call (enter : Enter ρ ℚ) {f x : String} {e : Expr ρ} {body : List (Expr ρ)}
    {scope : Scope} {t : Session ρ ℚ} (h : t.registry.find? (Signature.mk f (.ofList [x])).shape =
      some (.user ⟨⟨f, .ofList [x]⟩, body, scope⟩)) (m : Mode) :
    (((ofCall f (.ofList [e])).denote enter).answer m).exec t =
      ((e.denote enter).stored m >>= fun b => (do
        let inner ← Run.extend scope
        Run.within inner ([(x, b)].forM fun b => Run.assign b.1 b.2)
        Run.activate inner (enter body m))).exec t := by
  have hcall : ((ofCall f (.ofList [e])).denote enter).answer m =
      Run.function (Signature.mk f (.ofList [x])).shape >>= fun g =>
        g.answer enter (.ofList [e.denote enter]) m := by
    cases m <;> rfl
  have hactivate : Closure.activate enter ⟨⟨f, .ofList [x]⟩, body, scope⟩
      (.ofList [e.denote enter]) m = (e.denote enter).stored m >>= fun b => (do
        let inner ← Run.extend scope
        Run.within inner ([(x, b)].forM fun b => Run.assign b.1 b.2)
        Run.activate inner (enter body m)) := by
    simp [Closure.activate, Closure.bind, Slots.zip, Slots.ofList]
  rw [hcall, Run.exec_bind, Run.exec_function, h, ← hactivate]
  rfl

/-- The session in which the body of a function with one parameter is run. -/
def Session.inBody (t : Session ρ ℚ) (scope : Scope) (x : String) (b : Binding ρ ℚ) :
    Session ρ ℚ :=
  ((t.enter scope).assignAll [(x, b)]).down (t.enter scope).scope

/-- The parameter is bound in the body of a function. -/
lemma Session.lookup?_inBody (t : Session ρ ℚ) (scope : Scope) (x : String) (b : Binding ρ ℚ) :
    (t.inBody scope x b).frames.lookup? (t.inBody scope x b).scope x = some b := by
  refine Frames.lookup?_assign_self ?_ x b
  exact (Nat.lt_succ_self t.frames.size).trans_eq (Frames.size_extend t.frames scope).symm

section Activation

variable {scope : Scope} {x : String} {b : Binding ρ ℚ} {act : Run ρ ℚ α} {t : Session ρ ℚ}

/-- The activation of a function has a result if the depth allows it and the body has one. -/
lemma Run.of_leads_activation {answers : Answers} {a : α} {t' : Session ρ ℚ}
    (h : (do
      let inner ← extend scope
      within inner ([(x, b)].forM fun b => assign b.1 b.2)
      activate inner act).Leads answers t (.ok a) t') :
    t.limits.maxDepth.filter (· ≤ t.depth) = none ∧
      ∃ u, act.Leads answers (t.inBody scope x b) (.ok a) u := by
  rw [leads_activation] at h
  split at h
  · cases h.1
  · next hdepth =>
    obtain ⟨u, hu, -⟩ := h
    exact ⟨hdepth, u, hu⟩

/-- The mean of the activation of a function that the depth allows. -/
lemma Run.mean_activation (h : t.limits.maxDepth.filter (· ≤ t.depth) = none) (g : α → ℚ) :
    (do
      let inner ← extend scope
      within inner ([(x, b)].forM fun b => assign b.1 b.2)
      activate inner act).mean t g = act.mean (t.inBody scope x b) g := by
  unfold mean
  rw [exec_activation, h]
  exact Sampler.expect_bind _ _ _

end Activation

/-! ## Bodies in which a variable is read -/

/-- The sessions that differ from one in what has been used up are a setting if that one is. -/
lemma Session.isSetting_charged {u : Session ρ ℚ} (hrolls : u.limits.maxRolls = none)
    (hbranch : u.registry.find? Builtin.branch.shape = some (.builtin .branch)) :
    IsSetting u.Charged where
  spend ht n := ht.spend n
  rolls ht := by rw [ht.limits, hrolls]
  branch ht := by rw [ht.registry, hbranch]

/-- The mean of a body in which a variable is read that holds a number. -/
theorem Formula.mean_fill_var (hρ : Scalar.IsCongruent ρ) {u : Session ρ ℚ}
    (hrolls : u.limits.maxRolls = none)
    (hbranch : u.registry.find? Builtin.branch.shape = some (.builtin .branch)) {x : String}
    {a : Number ρ} (hx : u.frames.lookup? u.scope x = some (.value (.number a)))
    (enter : Enter ρ ℚ) (F : Formula ρ) {g : Number ρ → ℚ} (hg : Number.IsInvariant g) :
    ((F.fill (.var x)).denote enter).value.mean u (fun v => onNumber g v.outcome) =
      F.expect (fun h => h a) g := by
  have hvar : ((Expr.var x).denote enter).value.Draws u.Charged fun h => h a :=
    Meaning.draws_var fun t ht => by rw [ht.lookup?, hx]
  exact (F.draws_fill hρ (Session.isSetting_charged hrolls hbranch) hvar).mean u.charged_self hg

end DiceCalculus
