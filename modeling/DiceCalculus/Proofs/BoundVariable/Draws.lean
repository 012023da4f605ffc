import DiceCalculus.Proofs.BoundVariable.Formula

set_option autoImplicit false
set_option relaxedAutoImplicit false

/-!
# Samples and laws of formulas

A formula can be sampled with an expression at its places, and its law can be computed with a
variable at its places. Both come to the expected value of the formula: the sampled expression is
drawn anew at every place, and so is the law that the variable holds.

## Main definitions

* `IsSetting` — a class of sessions in which formulas can be evaluated.
* `Run.Draws` — a sampled expression has a given expected value.
* `Run.Integrates` — the law of an expression has a given expected value.

## Main results

* `Formula.draws_fill` — a formula that is sampled.
* `Formula.integrates_fill_var` — a formula whose law is computed.
-/

namespace DiceCalculus

variable {ρ : Type} [Scalar ρ] {β : Type}

open Outcome

/-! ## Numbers that are sampled -/

/-- In the sessions of a class any number of dice can be rolled, and a conditional is the built-in
one. -/
structure IsSetting (I : Session ρ ℚ → Prop) : Prop where
  /-- Spending dice does not leave the class. -/
  spend : ∀ {t}, I t → ∀ n, I { t with spent := t.spent + n }
  /-- There is no limit of dice. -/
  rolls : ∀ {t}, I t → t.limits.maxRolls = none
  /-- The built-in conditional is registered. -/
  branch : ∀ {t}, I t → t.registry.find? Builtin.branch.shape = some (.builtin .branch)

/-- From the sessions of a class, a sampled expression leads to numbers with a given expected value,
and not out of the class. A failure counts as zero. -/
structure Run.Draws (I : Session ρ ℚ → Prop) (E : (Number ρ → ℚ) → ℚ)
    (act : Run ρ ℚ (Value ρ ℚ)) : Prop where
  /-- A value is a number, and the session is one of the class. -/
  results : ∀ {t}, I t → ∀ {v t'}, act.Leads IsRoll t (.ok v) t' → I t' ∧ ∃ x, v = .number x
  /-- The mean is the expected value. -/
  mean : ∀ {t}, I t → ∀ {g}, Number.IsInvariant g →
    act.mean t (fun v => onNumber g v.outcome) = E g

variable {I : Session ρ ℚ → Prop} {E E' : (Number ρ → ℚ) → ℚ}

namespace Run.Draws

variable {act : Run ρ ℚ (Value ρ ℚ)} {f : Number ρ → Run ρ ℚ β} {t : Session ρ ℚ}
variable (hact : act.Draws I E) (ht : I t)

include hact ht

/-- What a computation leads to that goes on with a number that is sampled. -/
lemma of_leads_withNumber {b : β} {t' : Session ρ ℚ}
    (h : (act.withNumber f).Leads IsRoll t (.ok b) t') :
    ∃ x t₁, I t₁ ∧ (f x).Leads IsRoll t₁ (.ok b) t' := by
  obtain ⟨v, t₁, hv, h⟩ := Run.leads_bind_ok.1 h
  obtain ⟨ht₁, x, rfl⟩ := hact.results ht hv
  exact ⟨x, t₁, ht₁, h⟩

/-- The mean of a computation that goes on with a number that is sampled. -/
lemma mean_withNumber {g : β → ℚ} {h : Number ρ → ℚ} (hh : Number.IsInvariant h)
    (hf : ∀ x t₁, I t₁ → (f x).mean t₁ g = h x) : (act.withNumber f).mean t g = E h := by
  rw [← hact.mean ht hh]
  refine Run.mean_bind fun v t₁ hv => ?_
  obtain ⟨ht₁, x, rfl⟩ := hact.results ht hv
  exact hf x t₁ ht₁

omit f in
/-- The expected value of zero. -/
lemma zero : E (fun _ => 0) = 0 :=
  calc E (fun _ => 0)
      = act.mean t fun v => onNumber (fun _ => 0) v.outcome :=
        (hact.mean ht fun _ _ _ => rfl).symm
    _ = act.mean t fun _ => 0 := Run.mean_congr fun v _ _ => onNumber_zero v.outcome
    _ = 0 := (isAveraging_mean act t).zero

omit hact ht in
/-- What is sampled is known by what the computation does in the sessions of the class. -/
lemma congr {act' : Run ρ ℚ (Value ρ ℚ)} (h : ∀ t, I t → act'.exec t = act.exec t)
    (hact : act.Draws I E) : act'.Draws I E where
  results {t} ht {v t'} hv := by
    refine hact.results ht ?_
    unfold Run.Leads at hv ⊢
    rwa [← h t ht]
  mean {t} ht {g} hg := by
    rw [← hact.mean ht hg]
    unfold Run.mean
    rw [h t ht]

end Run.Draws

/-- The chance of a number is a mean. -/
lemma Run.chance_isNumber (act : Run ρ ℚ (Value ρ ℚ)) (t : Session ρ ℚ) (x : Number ρ) :
    act.chance t (·.isNumber x) = act.mean t fun v => onNumber (Number.indicator x) v.outcome := by
  rw [Run.chance_eq_mean]
  congr 1
  funext v
  cases v with
  | number y => simp only [Value.isNumber, beq_iff_eq]; rfl
  | sequence vs => rfl
  | law l => rfl

/-- If every number has the chance of its mass under a law, all means are expected values under that
law. -/
lemma Run.mean_eq_expect {act : Run ρ ℚ (Value ρ ℚ)} {t : Session ρ ℚ} {l : Law ρ ℚ}
    (hl : l.IsNumeric) (hchance : ∀ x, act.chance t (·.isNumber x) = l.massOf (.number x))
    {g : Number ρ → ℚ} (hg : Number.IsInvariant g) :
    act.mean t (fun v => onNumber g v.outcome) = l.expect g := by
  have hmass {y : Number ρ} {t' : Session ρ ℚ} (hy : act.Leads IsRoll t (.ok (.number y)) t') :
      l.massOf (.number y) ≠ 0 := by
    rw [← hchance, Run.chance_isNumber, ne_eq, Run.mean_eq_zero_iff fun v => ?_]
    · intro h
      have hone : Number.indicator y y = 0 := h _ t' hy
      rw [Number.indicator, if_pos Std.ReflCmp.compare_self] at hone
      exact one_ne_zero hone
    · rw [onNumber_indicator]
      exact indicator_nonneg _ _
  have hzero : (l.expect fun u => g u / l.massOf (.number u) * 0) = 0 := by
    simp only [mul_zero]
    exact l.isAveraging_expect.zero
  -- the function is written as an expected value of indicators, and the two means are exchanged
  have hvalue (v : Value ρ ℚ) (t' : Session ρ ℚ) (hv : act.Leads IsRoll t (.ok v) t') :
      onNumber g v.outcome = l.expect fun u =>
        g u / l.massOf (.number u) * onNumber (Number.indicator u) v.outcome := by
    cases v with
    | number y => exact (Law.expect_indicator hg (hmass hv)).symm
    | sequence vs => exact hzero.symm
    | law l' => exact hzero.symm
  rw [Run.mean_congr hvalue, (isAveraging_mean act t).expect_comm]
  refine Law.expect_congr hl fun u hu => ?_
  obtain ⟨p, hu⟩ := hu
  rw [Run.mean_const_mul, ← Run.chance_isNumber, hchance, div_mul_cancel₀ _ (hl.massOf_ne_zero hu)]

/-- The mean of a computation that goes on with the result of a calculation that fails. -/
lemma Run.mean_bind_error {α : Type} {x : Except (Fault ρ ℚ) α} {e : Fault ρ ℚ} (h : x = .error e)
    (f : α → Run ρ ℚ β) (t : Session ρ ℚ) (g : β → ℚ) : (ofExcept x >>= f).mean t g = 0 := by
  subst h
  rfl

namespace Meaning

variable {x y test yes no count sides : Meaning ρ ℚ}

/-- A number that is given. -/
lemma draws_number (a : Number ρ) :
    (pure (.number a) : Run ρ ℚ (Value ρ ℚ)).Draws I fun g => g a where
  results {t} ht {v t'} hv := by
    obtain ⟨hva, rfl⟩ := Run.leads_pure.1 hv
    exact ⟨ht, a, Except.ok.inj hva⟩
  mean {t} _ {g} _ := Run.mean_pure _ t _

/-- A variable that is bound to a number. -/
lemma draws_var {name : String} {a : Number ρ}
    (h : ∀ t, I t → t.frames.lookup? t.scope name = some (.value (.number a))) :
    (var name : Meaning ρ ℚ).value.Draws I fun g => g a := by
  refine Run.Draws.congr (fun t ht => ?_) (draws_number a)
  show (Run.lookup name >>= _).exec t = _
  rw [Run.exec_bind, Run.exec_lookup, h t ht]
  rfl

/-- An operator. -/
lemma draws_binary {op : Operator} (hop : op.IsCongruent ρ) (hx : x.value.Draws I E)
    (hy : y.value.Draws I E') : (binary op x y).value.Draws I fun g =>
      E fun a => E' fun b => (op.value? a b).elim 0 g where
  results {t} ht {v t'} hv := by
    obtain ⟨a, t₁, ht₁, hv⟩ := hx.of_leads_withNumber ht hv
    obtain ⟨b, t₂, ht₂, hv⟩ := hy.of_leads_withNumber ht₁ hv
    obtain ⟨z, hz, rfl⟩ := Run.leads_bind_pure_ok.1 hv
    obtain ⟨-, rfl⟩ := Run.leads_ofExcept_ok.1 hz
    exact ⟨ht₂, z, rfl⟩
  mean {t} ht {g} hg := by
    have hrefl (a : Number ρ) : compare a a = .eq := Std.ReflCmp.compare_self
    refine hx.mean_withNumber ht (fun a a' ha => ?_) fun a t₁ ht₁ =>
      hy.mean_withNumber ht₁ (fun b b' hb => ?_) fun b t₂ ht₂ => ?_
    · exact congrArg E' (funext fun b => Operator.elim_value?_congr hg hop ha (hrefl b))
    · exact Operator.elim_value?_congr hg hop (hrefl a) hb
    · cases hz : op.value? a b with
      | none => exact Run.mean_bind_error (by rw [Operator.apply, hz]) _ _ _
      | some z =>
        refine Run.mean_bind_ofExcept (a := z) (by rw [Operator.apply, hz]) ?_
        exact Run.mean_pure _ t₂ _

/-- A roll goes on to its sum. -/
lemma dice_value_eq (count sides : Meaning ρ ℚ) : (dice count sides).value =
    faces count sides >>= fun shown => pure (.number (shown.foldl (· + ·) .zero)) := rfl

/-- The mean of a function of the sum of a roll with given operands. -/
lemma mean_roll {t : Session ρ ℚ} (hrolls : t.limits.maxRolls = none) {a b : Number ρ} {m : Nat}
    (hm : Dice.sides (μ := ℚ) b = .ok m) (g : Number ρ → ℚ) :
    (Run.ofExcept (Dice.count a) >>= fun n => Run.roll n m >>= fun shown =>
      pure (shown.map fun face => .int face.toInt32)).mean t
        (fun shown => g (shown.foldl (· + ·) .zero)) = Dice.sumAverage g a b := by
  unfold Dice.sumAverage
  cases hn : Dice.count (μ := ℚ) a with
  | ok n =>
    refine Run.mean_bind_ofExcept rfl ?_
    rw [Run.mean_map, Run.mean_roll hrolls, Dice.average_eq _ hn hm]
  | error e =>
    refine (Run.mean_bind_error rfl _ t _).trans (Dice.sumAverage_eq_zero g ?_).symm
    exact fun n m h => by rw [hn] at h; cases h

/-- A roll.

**Proof sketch.** The number of sides is drawn first and then the number of dice. If the outcome is
a number of sides, the mean of the roll is the average over all rolls with these operands
(`mean_roll`); if it is not, the run fails, and that average is zero by definition. -/
lemma draws_dice (hI : IsSetting I) (hcount : count.value.Draws I E)
    (hsides : sides.value.Draws I E') : (dice count sides).value.Draws I fun g =>
      E' fun b => E fun a => Dice.sumAverage g a b where
  results {t} ht {v t'} hv := by
    rw [dice_value_eq, faces_eq] at hv
    obtain ⟨shown, hshown, rfl⟩ := Run.leads_bind_pure_ok.1 hv
    obtain ⟨b, t₁, ht₁, h₁⟩ := hsides.of_leads_withNumber ht hshown
    obtain ⟨m, t₂, hm, h₂⟩ := Run.leads_bind_ok.1 h₁
    obtain ⟨-, rfl⟩ := Run.leads_ofExcept_ok.1 hm
    obtain ⟨a, t₃, ht₃, h₃⟩ := hcount.of_leads_withNumber ht₁ h₂
    obtain ⟨n, t₄, hn, h₄⟩ := Run.leads_bind_ok.1 h₃
    obtain ⟨-, rfl⟩ := Run.leads_ofExcept_ok.1 hn
    obtain ⟨_, h₅, -⟩ := Run.leads_bind_pure_ok.1 h₄
    obtain ⟨rfl, -⟩ := Run.leads_roll.1 h₅
    exact ⟨hI.spend ht₃ n, _, rfl⟩
  mean {t} ht {g} hg := by
    rw [dice_value_eq, Run.mean_map, faces_eq]
    refine hsides.mean_withNumber ht (h := fun b => E fun a => Dice.sumAverage g a b)
      (fun b b' hb => ?_) fun b t₁ ht₁ => ?_
    · exact congrArg E (funext fun a => Dice.isInvariant_sumAverage_sides g a b b' hb)
    cases hm : Dice.sides (μ := ℚ) b with
    | ok m =>
      refine Run.mean_bind_ofExcept rfl (hcount.mean_withNumber ht₁
        (Dice.isInvariant_sumAverage_count g b) fun a t₂ ht₂ => ?_)
      exact mean_roll (hI.rolls ht₂) hm g
    | error e =>
      have hzero (a : Number ρ) : Dice.sumAverage g a b = 0 :=
        Dice.sumAverage_eq_zero g fun n m _ h => by rw [hm] at h; cases h
      simp only [hzero]
      exact (Run.mean_bind_error rfl _ t₁ _).trans (hcount.zero ht₁).symm

/-- A conditional. -/
lemma draws_branch {E₁ E₀ : (Number ρ → ℚ) → ℚ} (htest : test.value.Draws I E)
    (hyes : yes.value.Draws I E₁) (hno : no.value.Draws I E₀) :
    (Builtin.value (branchArgs test yes no) .branch).Draws I fun g =>
      E fun a => if a.isZero then E₀ g else E₁ g where
  results {t} ht {v t'} hv := by
    rw [branch_value_eq] at hv
    obtain ⟨a, t₁, ht₁, hv⟩ := htest.of_leads_withNumber ht hv
    split at hv
    · exact hno.results ht₁ hv
    · exact hyes.results ht₁ hv
  mean {t} ht {g} hg := by
    rw [branch_value_eq]
    refine htest.mean_withNumber ht (fun a a' ha => ?_) fun a t₁ ht₁ => ?_
    · rw [Number.isZero_congr ha]
    · split
      · exact hno.mean ht₁ hg
      · exact hyes.mean ht₁ hg

end Meaning

/-! ## Formulas that are sampled -/

namespace Formula

variable {enter : Enter ρ ℚ}

/-- A formula with an expression at its places draws from the expected value of the formula, if the
expression draws from that of what is read. -/
theorem draws_fill (hρ : Scalar.IsCongruent ρ) (hI : IsSetting I) {e : Expr ρ}
    (he : (e.denote enter).value.Draws I E) (F : Formula ρ) :
    ((F.fill e).denote enter).value.Draws I (F.expect E) := by
  induction F with
  | read => exact he
  | literal x => exact Meaning.draws_number x
  | binary op left right ihl ihr => exact Meaning.draws_binary (hρ op) ihl ihr
  | dice count sides ihc ihs => exact Meaning.draws_dice hI ihc ihs
  | branch test yes no iht ihy ihn =>
    rw [fill, Expr.denote_branch]
    exact (Meaning.draws_branch iht ihy ihn).congr fun t ht =>
      Meaning.exec_builtin _ (hI.branch ht) .sample

end Formula

/-! ## Formulas whose law is computed -/

/-- From a session, a run leads to laws of numbers with a given expected value, and leaves the session
as it is. -/
def Run.Integrates (answers : Answers) (t : Session ρ ℚ) (E : (Number ρ → ℚ) → ℚ)
    (act : Run ρ ℚ (Law ρ ℚ)) : Prop :=
  ∀ ⦃d t'⦄, act.Leads answers t (.ok d) t' →
    t' = t ∧ d.IsNumeric ∧ ∀ {g}, Number.IsInvariant g → d.expect g = E g

/-- A run that is executed like another one leads to the same laws. -/
lemma Run.Integrates.congr {answers : Answers} {t : Session ρ ℚ} {act act' : Run ρ ℚ (Law ρ ℚ)}
    (hexec : act'.exec t = act.exec t) (h : act.Integrates answers t E) :
    act'.Integrates answers t E := by
  intro d t' hd
  refine h ?_
  unfold Run.Leads at hd ⊢
  rwa [← hexec]

/-- Adding a branch to a mixture takes the law of the branch if it has a chance. -/
lemma Meaning.of_leads_mixBranch {x : Meaning ρ ℚ} {args : Slots (Meaning ρ ℚ)} {keyword : String}
    {chance : ℚ} {mixture d : Law ρ ℚ} {answers : Answers} {t t' : Session ρ ℚ}
    (hx : args.firstOf (ρ := ρ) (μ := ℚ) keyword = .ok x) (hlaw : x.law.Integrates answers t E)
    (h : (Builtin.mixBranch args keyword chance mixture).Leads answers t (.ok d) t') :
    ∃ l, d = mixture.addPositive chance l ∧ t' = t ∧ (Mass.isPositive chance = true →
      l.IsNumeric ∧ ∀ {g}, Number.IsInvariant g → l.expect g = E g) := by
  rw [mixBranch_eq hx] at h
  unfold Law.addPositive
  by_cases hpos : Mass.isPositive chance = true
  · simp only [hpos, if_true] at h ⊢
    obtain ⟨l, hl, rfl⟩ := Run.leads_bind_pure_ok.1 h
    obtain ⟨rfl, hmean⟩ := hlaw hl
    exact ⟨l, rfl, rfl, fun _ => hmean⟩
  · rw [if_neg hpos] at h
    obtain ⟨hd, rfl⟩ := Run.leads_pure.1 h
    exact ⟨.empty, by rw [if_neg hpos, Except.ok.inj hd], rfl, fun hp => absurd hp hpos⟩

namespace Meaning

variable {x y test yes no count sides : Meaning ρ ℚ} {answers : Answers} {t : Session ρ ℚ}

/-- A variable that holds a law of numbers. -/
lemma integrates_var {name : String} {b : Binding ρ ℚ} {l : Law ρ ℚ}
    (hb : t.frames.lookup? t.scope name = some b) (hbl : b.toLaw = .ok l) (hl : l.IsNumeric) :
    (var name : Meaning ρ ℚ).law.Integrates answers t l.expect := by
  intro d t' h
  obtain ⟨b', t₁, hb', hlaw⟩ := Run.leads_bind_ok.1 h
  obtain ⟨hfound, rfl⟩ := Run.leads_lookup_ok.1 hb'
  obtain ⟨hd, rfl⟩ := Run.leads_ofExcept_ok.1 hlaw
  obtain rfl := Option.some_inj.1 (hb.symm.trans hfound)
  obtain rfl := Except.ok.inj (hbl.symm.trans hd)
  exact ⟨rfl, hl, fun _ => rfl⟩

/-- A number that is given. -/
lemma integrates_literal (x : Number ρ) :
    (literal x : Meaning ρ ℚ).law.Integrates answers t fun g => g x := by
  intro d t' h
  obtain ⟨hd, rfl⟩ := Run.leads_pure.1 h
  obtain rfl := Except.ok.inj hd
  exact ⟨rfl, Law.isNumeric_certain x, fun _ => Law.integral_certain _ _⟩

/-- An operator. -/
lemma integrates_binary {op : Operator} (hop : op.IsCongruent ρ)
    (hx : x.law.Integrates answers t E) (hy : y.law.Integrates answers t E') :
    (binary op x y).law.Integrates answers t fun g =>
      E fun a => E' fun b => (op.value? a b).elim 0 g := by
  intro d t' h
  obtain ⟨l₁, t₁, h₁, hrest⟩ := Run.leads_bind_ok.1 h
  obtain ⟨l₂, t₂, h₂, hlaw⟩ := Run.leads_bind_ok.1 hrest
  obtain ⟨rfl, hl₁, hleft⟩ := hx h₁
  obtain ⟨rfl, hl₂, hright⟩ := hy h₂
  obtain ⟨hd, rfl⟩ := Run.leads_calculate_ok.1 hlaw
  refine ⟨rfl, Law.isNumeric_of_operate hl₁ hl₂ hd, fun {g} hg => ?_⟩
  have hrefl (a : Number ρ) : compare a a = .eq := Std.ReflCmp.compare_self
  have hinner (a : Number ρ) : (l₂.expect fun b => (op.value? a b).elim 0 g) =
      E' fun b => (op.value? a b).elim 0 g :=
    hright fun b b' hb => Operator.elim_value?_congr hg hop (hrefl a) hb
  rw [Law.expect_operate hg hl₁ hop hl₂ hd]
  simp only [hinner]
  exact hleft fun a a' ha => congrArg E' (funext fun b =>
    Operator.elim_value?_congr hg hop ha (hrefl b))

/-- A roll. -/
lemma integrates_dice (hadd : Operator.add.IsCongruent ρ)
    (hcount : count.law.Integrates answers t E) (hsides : sides.law.Integrates answers t E') :
    (dice count sides).law.Integrates answers t fun g =>
      E' fun b => E fun a => Dice.sumAverage g a b := by
  intro d t' h
  obtain ⟨l₁, t₁, h₁, hrest⟩ := Run.leads_bind_ok.1 h
  obtain ⟨l₂, t₂, h₂, hlaw⟩ := Run.leads_bind_ok.1 hrest
  obtain ⟨rfl, hl₁, hleft⟩ := hcount h₁
  obtain ⟨rfl, hl₂, hright⟩ := hsides h₂
  obtain ⟨hd, rfl⟩ := Run.leads_calculate_ok.1 hlaw
  refine ⟨rfl, Dice.isNumeric_of_law hl₁ hl₂ hd, fun {g} hg => ?_⟩
  have hinner (b : Number ρ) : (l₁.expect fun a => Dice.sumAverage g a b) =
      E fun a => Dice.sumAverage g a b :=
    hleft (Dice.isInvariant_sumAverage_count g b)
  rw [Dice.expect_law hg hl₁ hadd hl₂ hd]
  simp only [hinner]
  exact hright fun b b' hb => congrArg E (funext fun a =>
    Dice.isInvariant_sumAverage_sides g a b b' hb)

/-- A conditional. -/
lemma integrates_branch {E₁ E₀ : (Number ρ → ℚ) → ℚ}
    (htest : test.law.Integrates answers t E) (hyes : yes.law.Integrates answers t E₁)
    (hno : no.law.Integrates answers t E₀) :
    (Builtin.exact (branchArgs test yes no) .branch).Integrates answers t fun g =>
      E fun a => if a.isZero then E₀ g else E₁ g := by
  intro d t' h
  rw [branch_exact_eq] at h
  obtain ⟨lt, t₁, ht, hrest⟩ := Run.leads_bind_ok.1 h
  obtain ⟨rfl, hlt, hmean⟩ := htest ht
  obtain ⟨mixture, t₂, hthen, helse⟩ := Run.leads_bind_ok.1 hrest
  obtain ⟨l₁, rfl, rfl, h₁⟩ := of_leads_mixBranch rfl hyes hthen
  obtain ⟨l₀, rfl, rfl, h₀⟩ := of_leads_mixBranch rfl hno helse
  refine ⟨rfl, ?_, fun {g} hg => ?_⟩
  · exact (Law.isNumeric_empty.addPositive fun hp => (h₁ hp).1).addPositive fun hp => (h₀ hp).1
  · refine (Law.expect_mixture hg hlt (fun hp => (h₁ hp).2 hg) fun hp => (h₀ hp).2 hg).trans ?_
    exact hmean fun a a' ha => by rw [Number.isZero_congr ha]

end Meaning

namespace Formula

variable {enter : Enter ρ ℚ} {answers : Answers} {t : Session ρ ℚ} {name : String}
  {b : Binding ρ ℚ} {l : Law ρ ℚ}

/-- A formula with a variable at its places, which holds a law of numbers: its own law gives the
expected value of the formula, and the session stays as it is. -/
theorem integrates_fill_var (hρ : Scalar.IsCongruent ρ)
    (hbranch : t.registry.find? Builtin.branch.shape = some (.builtin .branch))
    (hb : t.frames.lookup? t.scope name = some b) (hbl : b.toLaw = .ok l) (hl : l.IsNumeric)
    (F : Formula ρ) :
    ((F.fill (.var name)).denote enter).law.Integrates answers t (F.expect l.expect) := by
  induction F with
  | read => exact Meaning.integrates_var hb hbl hl
  | literal x => exact Meaning.integrates_literal x
  | binary op left right ihl ihr => exact Meaning.integrates_binary (hρ op) ihl ihr
  | dice count sides ihc ihs => exact Meaning.integrates_dice (hρ .add) ihc ihs
  | branch test yes no iht ihy ihn =>
    rw [fill, Expr.denote_branch]
    exact (Meaning.integrates_branch iht ihy ihn).congr (Meaning.exec_builtin _ hbranch .exact)

end Formula

end DiceCalculus
