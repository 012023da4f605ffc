import DiceCalculus.Proofs.BoundVariable.Programs
import DiceCalculus.Proofs.Exact

set_option autoImplicit false
set_option relaxedAutoImplicit false

/-!
# Variables that hold a law

A variable that is bound while an expression is sampled holds a number, which is the same wherever
the variable is read. Bound while a law is computed, it holds a law, and every place at which it is
read is taken to be independent of the others. The law of a block or of a call is therefore that of
samples in which the expression is realized anew at every place. It is the law of the samples of the
block or call itself if the variable is read at one place at most, or holds a certain number.

## Main definitions

* `Session.Continues` — what a session may become while an expression is evaluated in it.
* `Expr.IsFaithful` — the law of an expression is that of its samples.
* `Session.DrawsAnew` — what the law of a program with a bound variable says about samples.

## Main results

* `Expr.IsNumeric.exists_isFaithful` — expressions that are built from numbers are faithful.
* `distribution_draws_bound_variable_anew` — blocks and calls with a bound variable.

## Design

What an expression is bound to may be evaluated several times, and each time may leave the session
somewhat different. An expression is faithful if there is a class of sessions that it does not lead
out of, and in which its samples have its law.
-/

namespace DiceCalculus

variable {ρ : Type} [Scalar ρ]

open Outcome

/-! ## Faithful expressions -/

/-- What a session may become while an expression is evaluated in it: the limits, the scope and the
depth are the same, frames are added only, and a conditional is the built-in one. -/
structure Session.Continues (s t : Session ρ ℚ) : Prop where
  /-- The limits are the same. -/
  limits : t.limits = s.limits
  /-- The scope is the same. -/
  scope : t.scope = s.scope
  /-- The depth is the same. -/
  depth : t.depth = s.depth
  /-- The frames are still there. -/
  size : s.frames.size ≤ t.frames.size
  /-- The built-in conditional is registered. -/
  branch : t.registry.find? Builtin.branch.shape = some (.builtin .branch)

/-- In the sessions of a class, the samples of an expression have the law that is computed for it from
one of them, and its evaluation does not lead out of the class. -/
structure Expr.IsFaithfulOn (I : Session ρ ℚ → Prop) (s : Session ρ ℚ) (e : Expr ρ)
    (l : Law ρ ℚ) : Prop where
  /-- The session is one of the class. -/
  start : I s
  /-- All sessions of the class continue it. -/
  continues : ∀ {t}, I t → s.Continues t
  /-- Spending dice does not lead out of the class. -/
  spend : ∀ {t}, I t → ∀ n, I { t with spent := t.spent + n }
  /-- The law is one of numbers. -/
  numeric : l.IsNumeric
  /-- The masses of the law sum up to one. -/
  normalized : l.IsNormalized
  /-- The law is the one that is computed. -/
  exact : ∃ t, I t ∧ e.law.exec s = .done (.ok l, t)
  /-- A sample is a number. -/
  results : ∀ {t}, I t → ∀ {v t'}, e.value.Leads IsRoll t (.ok v) t' → I t' ∧ ∃ x, v = .number x
  /-- Every number is sampled with the chance of its mass. -/
  chance : ∀ {t}, I t → ∀ x, e.value.chance t (·.isNumber x) = l.massOf (.number x)

/-- From a session on, the samples of an expression have the law that is computed for it. -/
def Expr.IsFaithful (s : Session ρ ℚ) (e : Expr ρ) (l : Law ρ ℚ) : Prop :=
  ∃ I, e.IsFaithfulOn I s l

namespace Session

variable {s t : Session ρ ℚ}

/-- The fuel for an evaluation is known by the limits and the depth. -/
lemma Continues.fuel (h : s.Continues t) : t.fuel = s.fuel := by
  unfold Session.fuel
  rw [h.limits, h.depth]

end Session

namespace Expr

variable {I : Session ρ ℚ → Prop} {s : Session ρ ℚ} {e : Expr ρ} {l : Law ρ ℚ}

namespace IsFaithfulOn

variable (h : e.IsFaithfulOn I s l)

include h

/-- The sessions in which a faithful expression is evaluated are a setting for formulas. -/
lemma isSetting (hrolls : s.limits.maxRolls = none) : IsSetting I where
  spend ht n := h.spend ht n
  rolls ht := by rw [(h.continues ht).limits, hrolls]
  branch ht := (h.continues ht).branch

/-- A faithful expression draws from its law. -/
lemma draws {enter : Enter ρ ℚ} (henter : ∀ e : Expr ρ, e.meaning s.fuel = e.denote enter) :
    (e.denote enter).value.Draws I l.expect := by
  have hvalue (t : Session ρ ℚ) (ht : I t) :
      (e.denote enter).value.exec t = e.value.exec t := by
    rw [Expr.value, Run.exec_ask, (h.continues ht).fuel, henter]
  have hdraws : e.value.Draws I l.expect :=
    ⟨fun ht _ _ hv => h.results ht hv, fun ht _ hg => Run.mean_eq_expect h.numeric (h.chance ht) hg⟩
  exact hdraws.congr hvalue

/-- The mean of what goes on with a faithful expression that is sampled and stored. -/
lemma mean_stored (hρ : Scalar.IsCongruent ρ) {enter : Enter ρ ℚ}
    (henter : ∀ e : Expr ρ, e.meaning s.fuel = e.denote enter) {F : Formula ρ} {g : Number ρ → ℚ}
    (hg : Number.IsInvariant g) {rest : Binding ρ ℚ → Run ρ ℚ (Value ρ ℚ)}
    (hrest : ∀ a t, I t → (rest (.value (.number a))).mean t (fun v => onNumber g v.outcome) =
      F.expect (fun h => h a) g) :
    ((e.denote enter).stored .sample >>= rest).mean s (fun v => onNumber g v.outcome) =
      l.expect fun a => F.expect (fun h => h a) g := by
  have hdraws := h.draws henter
  have hinv : Number.IsInvariant fun a => F.expect (fun h => h a) g := fun a a' ha =>
    Formula.expect_congr hρ (fun hk => hk a a' ha) hg
  rw [stored_sample_eq, bind_assoc, ← hdraws.mean h.start hinv]
  refine Run.mean_bind fun v t hv => ?_
  obtain ⟨ht, a, rfl⟩ := hdraws.results h.start hv
  exact hrest a t ht

/-- What has the law of a faithful expression is stored. -/
lemma exec_stored {enter : Enter ρ ℚ} (henter : ∀ e : Expr ρ, e.meaning s.fuel = e.denote enter) :
    ∃ b t, b.toLaw = .ok l ∧ I t ∧ ((e.denote enter).stored .exact).exec s = .done (.ok b, t) := by
  obtain ⟨t, ht, hexec⟩ := h.exact
  rw [Expr.law, Run.exec_ask, henter] at hexec
  obtain ⟨b, hb, hstored⟩ := exec_stored_exact hexec
  exact ⟨b, t, hb, ht, hstored⟩

/-- A faithful expression is no statement. -/
lemma isExpression : e.kind.capability ≠ .statement := by
  obtain ⟨enter, henter⟩ := exists_meaning_eq_denote (ρ := ρ) (μ := ℚ) s.fuel
  obtain ⟨t, ht, hexec⟩ := h.exact
  rw [Expr.law, Run.exec_ask, henter] at hexec
  have hleads : (e.denote enter).law.Leads .any s (.ok l) t :=
    (Run.leads_iff_of_done hexec).2 ⟨rfl, rfl⟩
  exact isExpression_of_leads_law hleads

end IsFaithfulOn

end Expr

/-- With the built-in functions and no limits, an expression that is built from numbers is faithful if it
can be sampled whatever the dice show. -/
theorem Expr.IsNumeric.exists_isFaithful (hρ : Scalar.IsCongruent ρ) {s : Session ρ ℚ}
    (hregistry : s.registry.HasBuiltins) (hlimits : s.limits.maxOutcomes = none)
    (hrolls : s.limits.maxRolls = none) {e : Expr ρ} (he : e.IsNumeric s.BindsNumber)
    (hsucceeds : e.value.Succeeds s) : ∃ l, e.IsFaithful s l := by
  obtain ⟨enter, henter⟩ := exists_meaning_eq_denote (ρ := ρ) (μ := ℚ) s.fuel
  have hcontinues (t : Session ρ ℚ) (ht : s.Charged t) : s.Continues t :=
    ⟨ht.limits, ht.scope, ht.depth, ht.size, by rw [ht.registry, hregistry]⟩
  have hvalue (t : Session ρ ℚ) (ht : s.Charged t) :
      e.value.exec t = (e.denote enter).value.exec t := by
    rw [Expr.value, Run.exec_ask, (hcontinues t ht).fuel, henter]
  have hs := s.charged_self
  obtain ⟨r, hexec, hsample, hdrawn⟩ := agrees_denote hρ hregistry hlimits hrolls enter he
  obtain ⟨l, rfl⟩ : ∃ l, r = .ok l := by
    rw [← hsample s hs]
    unfold Run.Succeeds Run.Leads at hsucceeds ⊢
    rwa [hvalue s hs] at hsucceeds
  have hl : l.IsDrawnBy e.value s := (hdrawn l rfl).congr hvalue
  refine ⟨l, s.Charged, hs, hcontinues _, fun ht n => ht.spend n, hl.numeric, hl.normalized,
    ⟨s, hs, ?_⟩, fun ht _ _ hv => hl.of_leads ht hv, fun {t} ht x => ?_⟩
  · rw [Expr.law, Run.exec_ask, henter, hexec s hs]
  · rw [Run.chance_isNumber, Law.massOf_eq_expect]
    exact hl.mean ht (isInvariant_onNumber (Number.isInvariant_indicator x))

/-! ## Programs with a bound variable -/

namespace Session

/-- If a session gives an expression a law, every number has the mass with which another expression, or
the same, is sampled as that number. -/
def LawDescribes (s : Session ρ ℚ) (e sampled : Expr ρ) : Prop :=
  ∀ d, (distribution e).Returns s (.ok d) → ∀ v : Number ρ,
    d.massOf (.number v) = (evaluate sampled).chance s (·.isNumber v)

/-- The law of a program with a bound variable describes the samples of a program in which what is bound
is realized anew wherever the variable is read. If the variable is read at one place at most on every
way through the formula, or holds a certain number, it describes the samples of the program itself. -/
structure DrawsAnew (s : Session ρ ℚ) (F : Formula ρ) (l : Law ρ ℚ) (bound inlined : Expr ρ) :
    Prop where
  /-- What is bound is realized wherever the variable is read. -/
  anew : s.LawDescribes bound inlined
  /-- Realizing it once makes no difference. -/
  once : (F.reads ≤ 1 ∨ ∃ a, l.IsCertain a) → s.LawDescribes bound bound

variable {s : Session ρ ℚ} {enter : Enter ρ ℚ} {e bound inlined : Expr ρ} {F : Formula ρ}
  {l : Law ρ ℚ}
variable (henter : ∀ e : Expr ρ, e.meaning s.renewed.fuel = e.denote enter)

include henter

/-- The chance that a sampled expression is a given number. -/
lemma chance_evaluate (v : Number ρ) : (evaluate e).chance s (·.isNumber v) =
    (e.denote enter).value.mean s.renewed fun w => onNumber (Number.indicator v) w.outcome := by
  rw [← Run.chance_isNumber]
  unfold Run.chance
  rw [exec_evaluate henter]

/-- The law that a session gives is that of the meaning of an expression. -/
lemma leads_of_returns {d : Law ρ ℚ} (h : (distribution e).Returns s (.ok d)) :
    ∃ t, (e.denote enter).law.Leads IsRoll s.renewed (.ok d) t := by
  obtain ⟨t, hexec⟩ := h
  have hleads : (distribution e).Leads IsRoll s (.ok d) t :=
    (Run.leads_iff_of_done hexec).2 ⟨rfl, rfl⟩
  obtain ⟨r, hr, hd⟩ := leads_distribution.1 hleads
  obtain ⟨d', rfl, hchecked⟩ := Except.bind_eq_ok_iff.1 hd.symm
  obtain rfl := eq_of_checked hchecked
  rw [← henter]
  exact ⟨t, Run.leads_ask.1 hr⟩

/-- A program draws anew if its law and its samples are expected values of a formula: the law and the
samples without a bound variable with what is read drawn at every place, and the samples with one
drawn beforehand. -/
lemma drawsAnew_of_expect (hl : l.IsNumeric) (hone : l.IsNormalized)
    (h : ∀ d t, (bound.denote enter).law.Leads IsRoll s.renewed (.ok d) t →
      ∀ {g}, Number.IsInvariant g → d.expect g = F.expect l.expect g ∧
        (bound.denote enter).value.mean s.renewed (fun v => onNumber g v.outcome) =
          l.expect fun a => F.expect (fun h => h a) g)
    (hinlined : ∀ {g}, Number.IsInvariant g →
      (inlined.denote enter).value.mean s.renewed (fun v => onNumber g v.outcome) =
        F.expect l.expect g) : s.DrawsAnew F l bound inlined := by
  constructor
  · intro d hd v
    obtain ⟨t, ht⟩ := leads_of_returns henter hd
    have hv := Number.isInvariant_indicator v
    rw [Law.massOf_eq_expect, (h d t ht hv).1, chance_evaluate henter, hinlined hv]
  · intro hreads d hd v
    obtain ⟨t, ht⟩ := leads_of_returns henter hd
    obtain ⟨hlaw, hbound⟩ := h d t ht (Number.isInvariant_indicator v)
    rw [Law.massOf_eq_expect, hlaw, chance_evaluate henter, hbound]
    rcases hreads with hreads | ⟨a, ha⟩
    · exact Formula.expect_eq_of_reads_le_one hl hone hreads _
    · exact Formula.expect_eq_of_isCertain ha _

/-- A block that assigns a variable and goes on with a formula in it draws anew.

**Proof sketch.** In exact mode the block stores a binding with the law of the expression in its
fresh frame, and the formula integrates over this law at each place (`Formula.integrates_fill_var`).
Sampled, the binding is a number drawn from the law, so that the mean of the block integrates over
the law once, around the mean of the formula (`mean_stored`, `Formula.mean_fill_var`). With the
expression in place of the variable, every place draws by itself (`Formula.draws_fill`). -/
lemma drawsAnew_block (hρ : Scalar.IsCongruent ρ) (hrolls : s.limits.maxRolls = none) (x : String)
    (he : e.IsFaithful (s.renewed.enter s.scope) l) :
    s.DrawsAnew F l (.block [.assign x e, F.fill (.var x)]) (.block [F.fill e]) := by
  obtain ⟨I, he⟩ := he
  have hsetting := he.isSetting hrolls
  have hbody : (F.fill (.var x)).kind.capability ≠ .statement := Formula.isExpression_fill nofun
  -- the variable is bound in the frame of the block
  have hbound {t : Session ρ ℚ} (ht : I t) (b : Binding ρ ℚ) :
      (t.assign x b).frames.lookup? (t.assign x b).scope x = some b := by
    refine Frames.lookup?_assign_self (lt_of_lt_of_le ?_ (he.continues ht).size) x b
    rw [(he.continues ht).scope]
    exact (Nat.lt_succ_self _).trans_eq (Frames.size_extend s.renewed.frames s.scope).symm
  refine drawsAnew_of_expect henter he.numeric he.normalized (fun d t hd g hg => ⟨?_, ?_⟩)
    fun {g} hg => ?_
  · have hanswer : (((Expr.block [.assign x e, F.fill (.var x)]).denote enter).answer
      .exact).Leads IsRoll s.renewed (.ok d) t := hd
    rw [Expr.answer_block_assign enter hbody, Run.leads_inFreshFrame] at hanswer
    obtain ⟨t₁, hstored, -⟩ := hanswer
    obtain ⟨b, t₂, hb, hrest⟩ := Run.leads_bind_ok.1 hstored
    obtain ⟨b', t₃, hb', ht₃, hexec⟩ := he.exec_stored henter
    obtain ⟨hbb, rfl⟩ := (Run.leads_iff_of_done hexec).1 hb
    obtain rfl := Except.ok.inj hbb
    obtain ⟨_, t₄, hassign, hfilled⟩ := Run.leads_bind_ok.1 hrest
    obtain ⟨-, rfl⟩ := Run.leads_assign.1 hassign
    have hbranch := hsetting.branch ht₃
    exact (F.integrates_fill_var (t := t₂.assign x b) hρ hbranch (hbound ht₃ b) hb' he.numeric
      hfilled).2.2 hg
  · show (((Expr.block _).denote enter).answer .sample).mean _ _ = _
    rw [Expr.answer_block_assign enter hbody, Run.mean_inFreshFrame]
    refine he.mean_stored hρ henter hg fun a t ht => ?_
    have hrolls := hsetting.rolls ht
    have hbranch := hsetting.branch ht
    exact F.mean_fill_var (u := t.assign x _) hρ hrolls hbranch (hbound ht _) enter hg
  · show (((Expr.block _).denote enter).answer .sample).mean _ _ = _
    rw [Expr.answer_block enter (Formula.isExpression_fill he.isExpression), Run.mean_inFreshFrame]
    exact (F.draws_fill hρ hsetting (he.draws henter)).mean he.start hg

omit henter in
/-- A call of a function of one parameter whose body is a formula in it draws anew.

**Proof sketch.** As for a block, with the parameter bound in the frame of the activation. If there
is a law, the depth allowed the call, and it allows the same call of a sample. The formula that
replaces the call does not need this, since the expression stands in it by itself. -/
lemma drawsAnew_call (hρ : Scalar.IsCongruent ρ) (hrolls : s.limits.maxRolls = none) {f x : String}
    {scope : Scope} (hf : s.registry.find? (Signature.mk f (.ofList [x])).shape =
      some (.user ⟨⟨f, .ofList [x]⟩, [F.fill (.var x)], scope⟩)) (he : e.IsFaithful s.renewed l) :
    s.DrawsAnew F l (.ofCall f (.ofList [e])) (F.fill e) := by
  obtain ⟨I, he⟩ := he
  obtain ⟨enter, henter, hbodies⟩ := Expr.exists_enter (ρ := ρ) s.renewed.fuel
  have hsetting := he.isSetting hrolls
  have hcall (m : Mode) := Expr.exec_answer_call (t := s.renewed) (e := e) enter hf m
  refine drawsAnew_of_expect henter he.numeric he.normalized (fun d t hd g hg => ?_)
    fun {g} hg => (F.draws_fill hρ hsetting (he.draws henter)).mean he.start hg
  have hanswer : (((Expr.ofCall f (.ofList [e])).denote enter).answer .exact).Leads IsRoll s.renewed
    (.ok d) t := hd
  unfold Run.Leads at hanswer
  rw [hcall] at hanswer
  obtain ⟨b, t₁, hb, hrest⟩ := Run.leads_bind_ok.1 hanswer
  obtain ⟨b', t₂, hb', ht₂, hexec⟩ := he.exec_stored henter
  obtain ⟨hbb, rfl⟩ := (Run.leads_iff_of_done hexec).1 hb
  obtain rfl := Except.ok.inj hbb
  obtain ⟨hdepth, u, hfilled⟩ := Run.of_leads_activation hrest
  rcases hbodies with hnone | ⟨enter', henter'⟩
  · rw [hnone] at hfilled
    obtain ⟨hd, -⟩ := Run.leads_throw.1 hfilled
    cases hd
  have hbody (m : Mode) : enter [F.fill (.var x)] m =
      ((F.fill (.var x)).denote enter').answer m := by
    have hexpression : (F.fill (.var x)).kind.capability ≠ .statement :=
      Formula.isExpression_fill nofun
    rw [henter']
    exact Expr.resultOf_denote enter' hexpression m
  rw [hbody] at hfilled
  constructor
  · have hbranch := hsetting.branch ht₂
    exact (F.integrates_fill_var (t := t₁.inBody scope x b) hρ hbranch (t₁.lookup?_inBody scope x b)
      hb' he.numeric hfilled).2.2 hg
  · have hmean : ((e.denote enter).stored .sample >>= fun b => (do
        let inner ← Run.extend scope
        Run.within inner ([(x, b)].forM fun b => Run.assign b.1 b.2)
        Run.activate inner (enter [F.fill (.var x)] .sample))).mean s.renewed
          (fun v => onNumber g v.outcome) = l.expect fun a => F.expect (fun h => h a) g := by
      refine he.mean_stored hρ henter hg fun a t ht => ?_
      have hrolls := hsetting.rolls ht
      have hbranch := hsetting.branch ht
      rw [Run.mean_activation, hbody]
      · exact F.mean_fill_var (u := t.inBody scope x _) hρ hrolls hbranch (t.lookup?_inBody scope x _)
          enter' hg
      · -- the depth allows the call of a sample because it allows that of a law
        rw [(he.continues ht).limits, (he.continues ht).depth, ← (he.continues ht₂).limits,
          ← (he.continues ht₂).depth, hdepth]
    refine Eq.trans ?_ hmean
    show (((Expr.ofCall f (.ofList [e])).denote enter).answer .sample).mean _ _ = _
    unfold Run.mean
    rw [hcall]

end Session

/-- What a variable holds is drawn anew wherever it is read. Let the law of an expression be that of its
samples, and let a formula be evaluated in a block in which a variable is assigned that expression, or
by a call of a function of one parameter with that argument. If there is a law, every number has the
mass with which it is sampled if the expression stands in the place of the variable and is realized
anew wherever that is read. If it is read at one place at most on every way through the formula, or
the expression has one number only, this is the chance with which the block or the call itself is
sampled as that number.

**Proof sketch.** The law of the formula gives functions of a number an expected value in which the law
of the expression is integrated over at every place (`Formula.integrates_fill_var`). This is the mean of
samples in which the expression is realized at every place (`Formula.draws_fill`). Samples that realize
it beforehand have a mean in which its law is integrated over first, which makes no difference for one
place (`Formula.expect_eq_of_reads_le_one`). -/
theorem distribution_draws_bound_variable_anew (hρ : Scalar.IsCongruent ρ) {s : Session ρ ℚ}
    (hrolls : s.limits.maxRolls = none) (x : String) (F : Formula ρ) {e : Expr ρ} {l : Law ρ ℚ} :
    (e.IsFaithful (s.renewed.enter s.scope) l →
      s.DrawsAnew F l (.block [.assign x e, F.fill (.var x)]) (.block [F.fill e])) ∧
    (e.IsFaithful s.renewed l → ∀ f scope,
      s.registry.find? (Signature.mk f (.ofList [x])).shape =
        some (.user ⟨⟨f, .ofList [x]⟩, [F.fill (.var x)], scope⟩) →
      s.DrawsAnew F l (.ofCall f (.ofList [e])) (F.fill e)) := by
  constructor
  · intro he
    obtain ⟨enter, henter⟩ := Expr.exists_meaning_eq_denote (ρ := ρ) (μ := ℚ) s.renewed.fuel
    exact Session.drawsAnew_block henter hρ hrolls x he
  · intro he f scope hf
    exact Session.drawsAnew_call hρ hrolls hf he

/-- A coin is assigned to a variable, or passed to a function, and one is added to it.

**Proof sketch.** A coin is an expression whose samples succeed, hence it has a law. The formula
reads the variable once, so that the law of the block and that of the call give a number the chance
that the samples do, which is computed. -/
theorem distribution_draws_bound_variable_anew_coin :
    let F : Formula (WithBot ℚ) := .binary .add .read (.literal (.int 1))
    let e : Expr (WithBot ℚ) := .dice (.literal (.int 1)) (.literal (.int 2))
    let f : Closure (WithBot ℚ) := ⟨⟨"next", .ofList ["x"]⟩, [F.fill (.var "x")], .global⟩
    let s : Session (WithBot ℚ) ℚ := { (Session.start ⟨none, none, none, 0⟩) with
      registry := Registry.standard.insert f.signature.shape (.user f) }
    let block : Expr (WithBot ℚ) := .block [.assign "x" e, F.fill (.var "x")]
    let call : Expr (WithBot ℚ) := .ofCall "next" (.ofList [e])
    (∃ l, e.IsFaithful (s.renewed.enter s.scope) l) ∧ (∃ l, e.IsFaithful s.renewed l) ∧
      (∃ d, (Session.distribution block).Returns s (.ok d) ∧ d.massOf (.number (.int 2)) = 1 / 2) ∧
      ∃ d, (Session.distribution call).Returns s (.ok d) ∧ d.massOf (.number (.int 2)) = 1 / 2 := by
  intro F e f s block call
  have hbuiltins : s.registry.HasBuiltins := fun b => by cases b <;> rfl
  have he (t : Session (WithBot ℚ) ℚ) : e.IsNumeric t.BindsNumber := .dice (.literal _) (.literal _)
  obtain ⟨l, hl⟩ := (he (s.renewed.enter s.scope)).exists_isFaithful Scalar.isCongruent_exact
    (s := s.renewed.enter s.scope) hbuiltins rfl rfl (Run.succeeds_iff_expect.2 (by decide +kernel))
  obtain ⟨l', hl'⟩ := (he s.renewed).exists_isFaithful Scalar.isCongruent_exact (s := s.renewed)
    hbuiltins rfl rfl (Run.succeeds_iff_expect.2 (by decide +kernel))
  have hblock := (distribution_draws_bound_variable_anew Scalar.isCongruent_exact (s := s) rfl "x" F
    (e := e) (l := l)).1 hl
  have hcall := (distribution_draws_bound_variable_anew Scalar.isCongruent_exact (s := s) rfl "x" F
    (e := e) (l := l')).2 hl' "next" .global rfl
  have hreturns {e : Expr (WithBot ℚ)} (h : (((Session.distribution e).exec s).result?.any fun q =>
      q.1.toOption.any fun _ => true) = true) : ∃ d, (Session.distribution e).Returns s (.ok d) := by
    obtain ⟨d, hd, -⟩ := Run.exists_returns h
    exact ⟨d, hd⟩
  obtain ⟨d, hd⟩ : ∃ d, (Session.distribution block).Returns s (.ok d) :=
    hreturns (by decide +kernel)
  obtain ⟨d', hd'⟩ : ∃ d, (Session.distribution call).Returns s (.ok d) :=
    hreturns (by decide +kernel)
  refine ⟨⟨l, hl⟩, ⟨l', hl'⟩, ⟨d, hd, ?_⟩, d', hd', ?_⟩
  · rw [hblock.once (.inl le_rfl) d hd]
    decide +kernel
  · rw [hcall.once (.inl le_rfl) d' hd']
    decide +kernel

/-- The law of a block does not describe its samples if a variable that holds a coin is read twice, if
the dice are more than the limit, or if what is assigned is such a block itself. -/
theorem distribution_misses_bound_variable :
    let coin : Expr (WithBot ℚ) := .dice (.literal (.int 1)) (.literal (.int 2))
    let twice : Expr (WithBot ℚ) := .block [.assign "x" coin, .binary .sub (.var "x") (.var "x")]
    let once (e : Expr (WithBot ℚ)) : Expr (WithBot ℚ) := .block [.assign "x" e, .var "x"]
    let s : Session (WithBot ℚ) ℚ := .start ⟨none, none, none, 0⟩
    let limited : Session (WithBot ℚ) ℚ := .start ⟨some 0, none, none, 0⟩
    ¬s.LawDescribes twice twice ∧ ¬limited.LawDescribes (once coin) (once coin) ∧
      ¬s.LawDescribes (once twice) (once twice) := by
  intro coin twice once s limited
  have hmiss {t : Session (WithBot ℚ) ℚ} {e : Expr (WithBot ℚ)} (x : Number (WithBot ℚ)) (c : ℚ)
      (hlaw : (((Session.distribution e).exec t).result?.any fun q => q.1.toOption.any fun d =>
        decide (d.massOf (.number x) = c)) = true)
      (hchance : (Session.evaluate e).chance t (·.isNumber x) ≠ c) : ¬t.LawDescribes e e := by
    intro h
    obtain ⟨d, hd, hmass⟩ := Run.exists_returns hlaw
    exact hchance ((h d hd x).symm.trans (of_decide_eq_true hmass))
  refine ⟨hmiss (.int 0) (1 / 2) ?_ ?_, hmiss (.int 1) (1 / 2) ?_ ?_, hmiss (.int 0) (1 / 2) ?_ ?_⟩
  all_goals decide +kernel

end DiceCalculus
