import DiceCalculus.Proofs.Agreement.Forms
import DiceCalculus.Proofs.Exact
import DiceCalculus.Proofs.Sessions

set_option autoImplicit false
set_option relaxedAutoImplicit false

/-!
# Samples and laws agree

An expression can be sampled and its law can be computed, and the two are computed in different
ways: one draws faces, the other multiplies and adds masses. For expressions that are built from
numbers by operators, rolls, conditionals and maxima the two agree. The law exists exactly if
sampling succeeds whatever the dice show, and it gives every number the chance that it is sampled.

## Main definitions

* `Expr.max`, `Expr.branch` — the calls of the built-in functions.
* `Expr.IsDiceFree` — an expression without dice.
* `Expr.IsNumeric` — the expressions in question.
* `Value.isNumber` — a value is a number equal to a given one.

## Main results

* `Expr.agrees_denote` — the meaning of every such expression agrees.
* `distribution_agrees_with_evaluation` — the law of such an expression is that of its samples.

## Design

A variable that is read twice has one value, but its law would be drawn from twice. The variables
of an expression in question are therefore bound to numbers. So are the operands of a roll whose
greatest die is asked for: its dice share one number of dice and one number of sides, and are
independent only if these are certain.
-/

namespace DiceCalculus

variable {ρ μ : Type}

open Outcome

/-! ## The expressions in question -/

namespace Expr

/-- The call of `max` with one argument. -/
def max (e : Expr ρ) : Expr ρ := ofCall "max" (.ofList [e])

/-- The call of `if` with a test and two branches. -/
def branch (test yes no : Expr ρ) : Expr ρ :=
  ofCall "if" (.ofGroups [test] [("then", [yes]), ("else", [no])])

/-- The arguments of a call of `if`, in the order of their keywords. -/
lemma branch_eq (test yes no : Expr ρ) :
    branch test yes no = .call (Builtin.shape .branch) (Meaning.branchArgs test yes no) := by
  have hargs : Slots.ofGroups [test] [("then", [yes]), ("else", [no])] =
      Meaning.branchArgs test yes no := by
    simp only [Slots.ofGroups, List.foldl, Slots.withKeyword, Slots.ofList, Slots.insertGroup]
    rw [show compare "else" "then" = .lt by decide]
    rfl
  unfold branch ofCall
  rw [hargs]
  exact congrArg (Expr.call · _) (show Shape.ofKeywords "if" 1 [("else", 1), ("then", 1)] =
    Shape.ofKeywords "if" 1 [("then", 1), ("else", 1)] by decide)

/-- There is no roll in an expression. -/
def IsDiceFree (e : Expr ρ) : Prop := e.Every fun part => ∀ count sides, part ≠ .dice count sides

/-- An expression is built from numbers, and from variables that are bound to numbers, by operators,
rolls, conditionals, and maxima of sequences and of rolls with operands that contain no dice. -/
inductive IsNumeric (binds : String → Prop) : Expr ρ → Prop
  | literal (x : Number ρ) : IsNumeric binds (.literal x)
  | var {name : String} (h : binds name) : IsNumeric binds (.var name)
  | binary (op : Operator) {left right : Expr ρ} (hleft : IsNumeric binds left)
    (hright : IsNumeric binds right) : IsNumeric binds (.binary op left right)
  | dice {count sides : Expr ρ} (hcount : IsNumeric binds count)
    (hsides : IsNumeric binds sides) : IsNumeric binds (.dice count sides)
  | branch {test yes no : Expr ρ} (htest : IsNumeric binds test) (hyes : IsNumeric binds yes)
    (hno : IsNumeric binds no) : IsNumeric binds (branch test yes no)
  | maxSequence {es : List (Expr ρ)} (hes : ∀ e ∈ es, IsNumeric binds e) :
    IsNumeric binds (max (.sequence es))
  | maxDice {count sides : Expr ρ} (hcount : IsNumeric binds count)
    (hsides : IsNumeric binds sides) (hcount' : count.IsDiceFree) (hsides' : sides.IsDiceFree) :
    IsNumeric binds (max (.dice count sides))

end Expr

/-- Every built-in function is registered under its shape. -/
def Registry.HasBuiltins (r : Registry ρ) : Prop :=
  ∀ b : Builtin, r.find? b.shape = some (.builtin b)

/-- The standard registry has every built-in function under its shape. -/
lemma Registry.hasBuiltins_standard : (standard : Registry ρ).HasBuiltins := fun b => by
  cases b <;> rfl

variable [Scalar ρ]

/-- A name is bound to a number in the scope of a session. -/
def Session.BindsNumber (s : Session ρ μ) (name : String) : Prop :=
  ∃ x, s.frames.lookup? s.scope name = some (.value (.number x))

/-- A value is a number equal to a given one. -/
def Value.isNumber (x : Number ρ) : Value ρ μ → Bool
  | number y => compare y x == .eq
  | sequence _ | law _ => false

/-! ## Calls of built-in functions -/

namespace Meaning

/-- A call under a shape at which a built-in function is registered does what the function does. -/
lemma exec_builtin [Mass μ] {b : Builtin} {args : Slots (Meaning ρ μ)} {t : Session ρ μ}
    (enter : Enter ρ μ) (h : t.registry.find? b.shape = some (.builtin b)) (m : Mode) :
    (do (← Run.function b.shape).answer enter args m : Run ρ μ _).exec t =
      (b.answer args m).exec t := by
  rw [Run.exec_bind, Run.exec_function, h]
  rfl

variable {s : Session ρ ℚ} {b : Builtin} {args : Slots (Meaning ρ ℚ)} {enter : Enter ρ ℚ}

/-- A call of a built-in function does what the function does. -/
lemma exec_call (hregistry : s.registry.HasBuiltins) (m : Mode) (t : Session ρ ℚ)
    (ht : s.Charged t) :
    (do (← Run.function b.shape).answer enter args m : Run ρ ℚ _).exec t =
      (b.answer args m).exec t :=
  exec_builtin enter (by rw [ht.registry, hregistry]) m

/-- A call of a built-in function agrees if the function does. -/
lemma agrees_call (hregistry : s.registry.HasBuiltins)
    (h : Run.Agrees s (b.value args) (b.exact args) fun l => l.IsDrawnBy (b.value args) s) :
    (call enter b.shape args).Agrees s :=
  Run.Agrees.congr (exec_call hregistry .sample) (exec_call hregistry .exact)
    (fun _ hl => hl.congr (exec_call hregistry .sample)) h

end Meaning

/-! ## Agreement -/

namespace Expr

variable {s : Session ρ ℚ}

/-- The meaning of a call of `max`. -/
lemma denote_max [Mass μ] (enter : Enter ρ μ) (e : Expr ρ) :
    (max e).denote enter = .call enter (Builtin.shape .max) (.ofList [e.denote enter]) :=
  denote_call enter _ _

/-- The meaning of a call of `if`. -/
lemma denote_branch [Mass μ] (enter : Enter ρ μ) (test yes no : Expr ρ) :
    (branch test yes no).denote enter = .call enter (Builtin.shape .branch)
      (Meaning.branchArgs (test.denote enter) (yes.denote enter) (no.denote enter)) := by
  rw [branch_eq, denote_call]
  rfl

/-- An expression without dice has one and the same sample, for which no dice are spent.

**Proof sketch.** By induction over the expression. A run that is a sequence of runs with one and
the same sample has one sample itself (`Run.IsFixed.bind`), and conditionals and maxima are calls of
built-in functions that the registry finds. A roll is not without dice. -/
lemma isFixed_denote (hregistry : s.registry.HasBuiltins) (enter : Enter ρ ℚ) {e : Expr ρ}
    (he : e.IsNumeric s.BindsNumber) (hfree : e.IsDiceFree) :
    Run.IsFixed s (e.denote enter).value := by
  induction he with
  | literal x => exact Run.isFixed_pure s _
  | @var name h =>
    obtain ⟨x, hx⟩ := h
    refine ⟨.ok (.number x), fun t ht => ?_⟩
    show (Run.lookup name >>= _).exec t = _
    rw [Run.exec_bind, Run.exec_lookup, ht.lookup?, hx]
    rfl
  | @binary op left right _ _ ihl ihr =>
    obtain ⟨-, hparts⟩ := hfree
    have hl := ihl (hparts left (by simp [parts]))
    have hr := ihr (hparts right (by simp [parts]))
    exact hl.bind fun v => (Run.isFixed_ofExcept s _).bind fun a => hr.bind fun w =>
      (Run.isFixed_ofExcept s _).bind fun b => (Run.isFixed_ofExcept s _).bind fun z =>
        Run.isFixed_pure s _
  | @dice count sides _ _ _ _ => exact absurd rfl (hfree.self count sides)
  | @branch test yes no _ _ _ iht ihy ihn =>
    rw [denote_branch]
    rw [branch_eq] at hfree
    obtain ⟨-, hparts⟩ := hfree
    have ht := iht (hparts test (by simp [parts, Slots.items, Meaning.branchArgs]))
    have hy := ihy (hparts yes (by simp [parts, Slots.items, Meaning.branchArgs]))
    have hn := ihn (hparts no (by simp [parts, Slots.items, Meaning.branchArgs]))
    refine Run.IsFixed.congr (Meaning.exec_call hregistry .sample) ?_
    show Run.IsFixed s (Builtin.value _ .branch)
    rw [Meaning.branch_value_eq]
    refine ht.bind fun v => (Run.isFixed_ofExcept s _).bind fun x => ?_
    split
    · exact hn
    · exact hy
  | @maxSequence es _ ih =>
    rw [denote_max]
    obtain ⟨-, hparts⟩ := hfree
    have hseq : (Expr.sequence es).IsDiceFree := hparts _ List.mem_cons_self
    refine Run.IsFixed.congr (Meaning.exec_call hregistry .sample) ?_
    show Run.IsFixed s (Builtin.value _ .max)
    rw [Meaning.max_value_eq]
    refine Run.IsFixed.bind ?_ fun vs =>
      (Run.isFixed_ofExcept s _).bind fun xs => Run.isFixed_pure s _
    show Run.IsFixed s ((denoteAll enter es).mapM (·.value))
    rw [denoteAll_eq_map]
    exact Run.isFixed_mapM (List.forall_mem_map.2 fun e he => ih e he (hseq.of_mem_parts he))
  | @maxDice count sides _ _ _ _ _ _ =>
    have hdice : (Expr.dice count sides).IsDiceFree := hfree.of_mem_parts List.mem_cons_self
    exact absurd rfl (hdice.self count sides)

/-- The meaning of every expression in question agrees.

**Proof sketch.** By induction over the expression: each form agrees if its parts do. The maximum of
a roll agrees because operands without dice have one and the same sample. -/
theorem agrees_denote (hρ : Scalar.IsCongruent ρ) (hregistry : s.registry.HasBuiltins)
    (hlimits : s.limits.maxOutcomes = none) (hrolls : s.limits.maxRolls = none)
    (enter : Enter ρ ℚ) {e : Expr ρ} (he : e.IsNumeric s.BindsNumber) :
    (e.denote enter).Agrees s := by
  induction he with
  | literal x => exact Meaning.agrees_literal s x
  | var h =>
    obtain ⟨x, hx⟩ := h
    exact Meaning.agrees_var hx
  | binary op _ _ ihl ihr => exact Meaning.agrees_binary (hρ op) hlimits ihl ihr
  | dice _ _ ihc ihs => exact Meaning.agrees_dice hrolls (hρ .add) hlimits ihc ihs
  | branch _ _ _ iht ihy ihn =>
    rw [denote_branch]
    exact Meaning.agrees_call hregistry (Meaning.agrees_branch iht ihy ihn)
  | @maxSequence es _ ih =>
    rw [denote_max, denote, denoteAll_eq_map]
    exact Meaning.agrees_call hregistry (Meaning.agrees_max hlimits
      (Meaning.itemsAgree_sequence (List.forall_mem_map.2 ih)))
  | maxDice hcount hsides hcount' hsides' ihc ihs =>
    rw [denote_max, denote]
    exact Meaning.agrees_call hregistry (Meaning.agrees_max hlimits
      (Meaning.itemsAgree_dice hrolls hlimits ihc ihs
        (isFixed_denote hregistry enter hcount hcount')
        (isFixed_denote hregistry enter hsides hsides')))

end Expr

/-- The chance that a drawn number equals a given one is the mass of that number. -/
lemma Law.IsDrawnBy.massOf_eq_chance {l : Law ρ ℚ} {act : Run ρ ℚ (Value ρ ℚ)}
    {s : Session ρ ℚ} (hl : l.IsDrawnBy act s) (x : Number ρ) :
    l.massOf (.number x) = act.chance s (·.isNumber x) := by
  show l.mass _ = _
  rw [mass_eq_integral, ← hl.mean s.charged_self (isInvariant_indicator _), Run.chance_eq_mean]
  congr 1
  funext v
  unfold indicator Value.isNumber Value.outcome
  cases v with
  | number y => simp only [compare_number_eq_iff, beq_iff_eq]
  | sequence vs => rfl
  | law l => rfl

namespace Session

variable {s : Session ρ ℚ} {enter : Enter ρ ℚ} {e : Expr ρ}
  (henter : ∀ e : Expr ρ, e.meaning s.renewed.fuel = e.denote enter)

include henter

/-- A session samples what an expression means. -/
lemma exec_evaluate : (evaluate e).exec s = (e.denote enter).value.exec s.renewed := by
  rw [← henter, ← Run.exec_ask]
  rfl

/-- A session gives the law of the meaning of an expression, if that asks for no dice and has mass
one. -/
lemma returns_distribution_iff (htolerance : 0 ≤ s.limits.tolerance)
    {r : Except (Stop ρ ℚ) (Law ρ ℚ)}
    (hlaw : (e.denote enter).law.exec s.renewed = .done (r, s.renewed))
    (hnormalized : ∀ l, r = .ok l → l.IsNormalized) {d : Law ρ ℚ} :
    (distribution e).Returns s (.ok d) ↔ r = .ok d := by
  have hexec : (distribution e).exec s =
      .done (r.bind (checked s.limits.tolerance), s.renewed) := by
    rw [exec_distribution, Expr.law, Run.exec_ask, henter, hlaw]
    rfl
  unfold Run.Returns
  rw [hexec]
  cases r with
  | error e => simp [Except.bind]
  | ok l =>
    have hchecked := checked_eq_ok (hnormalized l rfl) htolerance
    simp [Except.bind, hchecked]

/-- A session gives the law of an expression that has one. -/
lemma returns_of_hasLaw (htolerance : 0 ≤ s.limits.tolerance) {l : Law ρ ℚ}
    (h : (e.denote enter).HasLaw s.renewed l) : (distribution e).Returns s (.ok l) := by
  refine (returns_distribution_iff henter htolerance (h.2 _ s.renewed.charged_self) ?_).2 rfl
  exact fun l' hl' => Except.ok.inj hl' ▸ h.1.normalized

/-- A session gives a law exactly if sampling succeeds whatever the dice show, and the law is as the
agreement of the two says. -/
lemma of_agrees (htolerance : 0 ≤ s.limits.tolerance) {R : Law ρ ℚ → Prop}
    (h : Run.Agrees s.renewed (e.denote enter).value (e.denote enter).law R)
    (hR : ∀ l, R l → l.IsNormalized) :
    ((∃ d, (distribution e).Returns s (.ok d)) ↔ (evaluate e).Succeeds s) ∧
      ∀ d, (distribution e).Returns s (.ok d) → R d := by
  obtain ⟨r, hexec, hsucceeds, hr⟩ := h
  have hs := s.renewed.charged_self
  have hreturns (d : Law ρ ℚ) : (distribution e).Returns s (.ok d) ↔ r = .ok d :=
    returns_distribution_iff henter htolerance (hexec _ hs) fun l hl => hR l (hr l hl)
  refine ⟨?_, fun d hd => hr d ((hreturns d).1 hd)⟩
  rw [exists_congr hreturns, ← hsucceeds _ hs]
  unfold Run.Succeeds Run.Leads
  rw [exec_evaluate henter]

/-- A drawn number equals a given one with the mass of that number. -/
lemma massOf_eq_chance {d : Law ρ ℚ} (hd : d.IsDrawnBy (e.denote enter).value s.renewed)
    (x : Number ρ) : d.massOf (.number x) = (evaluate e).chance s (·.isNumber x) := by
  rw [hd.massOf_eq_chance x]
  unfold Run.chance
  rw [exec_evaluate henter]

end Session

/-- The law that a session gives for an expression in question is that of its meaning. -/
lemma Session.exists_isDrawnBy (hρ : Scalar.IsCongruent ρ) {s : Session ρ ℚ}
    (hregistry : s.registry = .standard) (hlimits : s.limits.maxOutcomes = none)
    (hrolls : s.limits.maxRolls = none) (htolerance : 0 ≤ s.limits.tolerance) {e : Expr ρ}
    (he : e.IsNumeric s.BindsNumber) :
    ∃ enter : Enter ρ ℚ, (∀ e : Expr ρ, e.meaning s.renewed.fuel = e.denote enter) ∧
      ((∃ d, (distribution e).Returns s (.ok d)) ↔ (evaluate e).Succeeds s) ∧
      ∀ d, (distribution e).Returns s (.ok d) →
        d.IsDrawnBy (e.denote enter).value s.renewed := by
  obtain ⟨enter, henter⟩ := Expr.exists_meaning_eq_denote (ρ := ρ) (μ := ℚ) s.renewed.fuel
  have hagrees : (e.denote enter).Agrees s.renewed :=
    Expr.agrees_denote (s := s.renewed) hρ (hregistry ▸ Registry.hasBuiltins_standard) hlimits hrolls
      enter he
  exact ⟨enter, henter, of_agrees henter htolerance hagrees fun l hl => hl.normalized⟩

/-- Samples and the law of an expression agree. With the standard functions and no limits, the law of
an expression in question exists exactly if sampling it succeeds whatever the dice show, and then
every number has the mass with which it is sampled, each list of faces being equally likely at every
request for dice.

**Proof sketch.** The meaning of the expression agrees with its samples (`Expr.agrees_denote`). Its
law has mass one, so that no tolerance is needed. -/
theorem distribution_agrees_with_evaluation (hρ : Scalar.IsCongruent ρ) {s : Session ρ ℚ}
    (hregistry : s.registry = .standard) (hlimits : s.limits.maxOutcomes = none)
    (hrolls : s.limits.maxRolls = none) (htolerance : 0 ≤ s.limits.tolerance) {e : Expr ρ}
    (he : e.IsNumeric s.BindsNumber) :
    ((∃ d, (Session.distribution e).Returns s (.ok d)) ↔ (Session.evaluate e).Succeeds s) ∧
      ∀ d, (Session.distribution e).Returns s (.ok d) → ∀ x : Number ρ,
        d.massOf (.number x) = (Session.evaluate e).chance s (·.isNumber x) := by
  obtain ⟨enter, henter, hiff, hdrawn⟩ :=
    Session.exists_isDrawnBy hρ hregistry hlimits hrolls htolerance he
  exact ⟨hiff, fun d hd => Session.massOf_eq_chance henter (hdrawn d hd)⟩

/-- A coin is a roll of one die with two sides. Both its law and its samples give one half to the
first side. -/
theorem distribution_agrees_with_coin :
    let s : Session (WithBot ℚ) ℚ := .start ⟨none, none, none, 0⟩
    let e : Expr (WithBot ℚ) := .dice (.literal (.int 1)) (.literal (.int 2))
    e.IsNumeric s.BindsNumber ∧ ∃ d, (Session.distribution e).Returns s (.ok d) ∧
      d.massOf (.number (.int 1)) = 1 / 2 := by
  intro s e
  have he : e.IsNumeric s.BindsNumber := .dice (.literal _) (.literal _)
  obtain ⟨hiff, hmass⟩ :=
    distribution_agrees_with_evaluation Scalar.isCongruent_exact (s := s) rfl rfl rfl le_rfl he
  have hsucceeds : (Session.evaluate e).Succeeds s := Run.succeeds_iff_expect.2 (by decide +kernel)
  obtain ⟨d, hd⟩ := hiff.2 hsucceeds
  refine ⟨he, d, hd, ?_⟩
  rw [hmass d hd]
  decide +kernel

end DiceCalculus
