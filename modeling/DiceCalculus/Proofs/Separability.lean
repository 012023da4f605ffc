import DiceCalculus.Proofs.Agreement
import DiceCalculus.Proofs.Law.RandomMaximum

set_option autoImplicit false
set_option relaxedAutoImplicit false

/-!
# The greatest die of a roll with random operands

A sample of the greatest die of a roll draws the number of sides and the number of dice once for all
dice. The law of the maximum takes the dice to be independent. The two agree exactly if the operands
are separable, and an example shows that they need not be.

## Main results

* `Meaning.exists_isDrawnBy_max_dice` — samples of the greatest die have a law.
* `Meaning.agrees_max_dice` — the law of the maximum is computed from those of the operands.
* `maximum_agrees_iff_isSeparable` — it is the law of the samples exactly for separable operands.
-/

namespace DiceCalculus

variable {ρ : Type} [Scalar ρ]

open Outcome

namespace Meaning

variable {s : Session ρ ℚ} {count sides : Meaning ρ ℚ} {l l' d : Law ρ ℚ}

/-- The greatest die of a roll, sampled. -/
lemma max_dice_value_eq (count sides : Meaning ρ ℚ) :
    Builtin.value (.ofList [dice count sides]) .max = faces count sides >>= fun xs =>
      pure (.number (xs.foldl Number.max .negInfinity)) := by
  rw [max_value_eq]
  show (faces count sides >>= fun xs => pure (xs.map Value.number)) >>= _ = _
  rw [bind_assoc]
  refine congrArg (_ >>= ·) (funext fun xs => ?_)
  rw [pure_bind, Value.mapM_toNumber]
  rfl

/-- Samples of the greatest die of a roll are drawn from a law, the mixture over the operands that
are drawn of the laws of the greatest of fair dice. -/
theorem exists_isDrawnBy_max_dice (hrolls : s.limits.maxRolls = none)
    (hl : l.IsDrawnBy count.value s) (hl' : l'.IsDrawnBy sides.value s)
    (hcount : l.Each fun o _ => Dice.IsCount o) (hsides : l'.Each fun o _ => Dice.IsSides o) :
    ∃ d : Law ρ ℚ, d.IsDrawnBy (Builtin.value (.ofList [dice count sides]) .max) s ∧
      ∀ g, IsInvariant g → d.integral g = Dice.greatestIntegral l l' g := by
  obtain ⟨d, hnumeric, hintegral⟩ := Dice.exists_greatestLaw hl.numeric hl'.numeric
  refine ⟨d, ⟨hnumeric, ⟨hnumeric.nonneg, ?_⟩, fun {t} ht {r t'} hr => ?_, fun {t} ht {g} hg => ?_⟩,
    hintegral⟩
  · rw [hintegral _ (Law.isInvariant_const 1)]
    exact Dice.greatestIntegral_one hl.normalized hl'.normalized hsides
  · rw [max_dice_value_eq] at hr
    obtain ⟨r₀, hr₀, rfl⟩ := Run.leads_bind_pure.1 hr
    obtain ⟨xs, rfl⟩ := (succeeds_faces hl hl' hrolls ht).2 ⟨hcount, hsides⟩ _ _ hr₀
    exact ⟨charged_of_faces hl hl' ht hr₀, _, rfl⟩
  · rw [max_dice_value_eq, Run.mean_map, hintegral g hg,
      Dice.greatestIntegral_eq_average hg hcount hsides]
    exact mean_faces hl hl' hrolls ht hcount hsides _

/-- The law of the greatest die of a roll. -/
lemma max_dice_exact_eq (count sides : Meaning ρ ℚ) :
    Builtin.exact (.ofList [dice count sides]) .max = count.law >>= fun l => sides.law >>= fun l' =>
      Run.read (·.limits) >>= fun limits => Run.ofExcept (Dice.laws limits l l') >>= fun dice =>
        Run.read (·.limits) >>= fun limits => Run.ofExcept (Law.maximum limits dice) := by
  rw [max_exact_eq]
  show (count.law >>= fun l => sides.law >>= fun l' => Run.read (·.limits) >>= fun limits =>
    Run.ofExcept (Dice.laws limits l l')) >>= _ = _
  simp only [bind_assoc]

/-- The law of the greatest die of a roll exists exactly if all samples of it succeed, and it is
computed from the laws of the operands. -/
theorem agrees_max_dice (hrolls : s.limits.maxRolls = none) (hlimits : s.limits.maxOutcomes = none)
    (hcount : count.Agrees s) (hsides : sides.Agrees s) :
    Run.Agrees s (Builtin.value (.ofList [dice count sides]) .max)
      (Builtin.exact (.ofList [dice count sides]) .max) fun d => ∃ l l' dice, count.HasLaw s l ∧
        sides.HasLaw s l' ∧ Dice.laws s.limits l l' = .ok dice ∧
        Law.maximum s.limits dice = .ok d := by
  rw [max_dice_value_eq, max_dice_exact_eq]
  refine agrees_of_faces hcount hsides (fun t => Run.succeeds_map.1) fun l l' hl hl' => ?_
  refine Run.agrees_of_exec (x := Dice.laws s.limits l l' >>= Law.maximum s.limits)
    (fun t ht => ?_) (fun t ht => ?_) fun d hd => ?_
  · rw [Run.exec_bind, Run.exec_read, Sampler.done_bind, ht.limits]
    show (Run.ofExcept (Dice.laws s.limits l l') >>= _).exec t = _
    rw [Run.exec_bind, Run.exec_ofExcept, Sampler.done_bind]
    cases Dice.laws s.limits l l' with
    | error e => rfl
    | ok dice =>
      show (Run.read (·.limits) >>= _).exec t = _
      rw [Run.exec_bind, Run.exec_read, Sampler.done_bind, ht.limits]
      exact Run.exec_ofExcept _ t
  · rw [Run.succeeds_map, succeeds_faces hl.1 hl'.1 hrolls ht, ← Dice.laws_isOk_iff hlimits]
    constructor
    · rintro ⟨dice, hdice⟩
      obtain ⟨d, hd⟩ := Law.exists_maximum hlimits dice
      exact ⟨d, Except.bind_eq_ok_iff.2 ⟨dice, hdice, hd⟩⟩
    · rintro ⟨d, hd⟩
      obtain ⟨dice, hdice, -⟩ := Except.bind_eq_ok_iff.1 hd
      exact ⟨dice, hdice⟩
  · obtain ⟨dice, hdice, hd⟩ := Except.bind_eq_ok_iff.1 hd
    exact ⟨l, l', dice, hl, hl', hdice, hd⟩

end Meaning

namespace Expr

variable {s : Session ρ ℚ} (hregistry : s.registry.HasBuiltins) (enter : Enter ρ ℚ) {e : Expr ρ}

include hregistry

/-- Samples of a call of `max` are drawn from the law of the samples of the function. -/
lemma isDrawnBy_max {l : Law ρ ℚ}
    (h : l.IsDrawnBy (Builtin.value (.ofList [e.denote enter]) .max) s) :
    l.IsDrawnBy ((max e).denote enter).value s := by
  rw [denote_max]
  exact h.congr (Meaning.exec_call hregistry .sample)

/-- The law of a call of `max` agrees with samples as that of the function does. -/
lemma agrees_max {R : Law ρ ℚ → Prop}
    (h : Run.Agrees s (Builtin.value (.ofList [e.denote enter]) .max)
      (Builtin.exact (.ofList [e.denote enter]) .max) R) :
    Run.Agrees s ((max e).denote enter).value ((max e).denote enter).law R := by
  rw [denote_max]
  exact Run.Agrees.congr (Meaning.exec_call hregistry .sample) (Meaning.exec_call hregistry .exact)
    (fun _ h => h) h

end Expr

/-- The law of the maximum of the dice of a roll has the masses of the law that samples are drawn
from exactly if the operands are separable. -/
lemma Dice.massOf_eq_iff_isSeparable {limits : Limits ℚ} {l l' d d' : Law ρ ℚ}
    (hl : l.IsNumeric) (hl' : l'.IsNumeric) (hone : l.IsNormalized) (hone' : l'.IsNormalized)
    {dice : List (Law ρ ℚ)} (h : laws limits l l' = .ok dice)
    (hd : Law.maximum limits dice = .ok d) (hd' : d'.IsNumeric)
    (hintegral : ∀ g, IsInvariant g → d'.integral g = greatestIntegral l l' g) :
    (∀ x, d.massOf (.number x) = d'.massOf (.number x)) ↔ IsSeparable l l' := by
  have hnumeric := Law.isNumeric_of_maximum (pos_of_laws hl.pos hl'.pos h) hd
  constructor
  · intro hmass
    have heq (i : Int32) : d.integral (atMost (.int i)) = greatestIntegral l l' (atMost (.int i)) := by
      rw [hnumeric.integral_eq hd' hmass (isInvariant_atMost _), hintegral _ (isInvariant_atMost _)]
    exact isSeparable_of_integral_eq hl hl' hone hone' h hd (heq 0) (heq 1)
  · intro hseparable x
    have hinv := isInvariant_indicator (single (.number x) : Outcome ρ)
    show d.mass _ = d'.mass _
    rw [Law.mass_eq_integral, Law.mass_eq_integral, hintegral _ hinv,
      integral_eq_of_isSeparable hinv hone hone' h hd hseparable]

/-- With the standard functions and no limits, the law of the greatest die of a roll exists exactly if
sampling succeeds whatever the dice show, and it is computed from the laws of the operands. It gives
every number the mass with which it is sampled exactly if the operands are separable: there is at
most one die, or one number of sides and either one of two successive numbers of dice, or always a
die and only one side.

**Proof sketch.** Samples are drawn from the mixture over the operands
(`Meaning.exists_isDrawnBy_max_dice`), and laws of numbers with the same masses give the same chance
to every bound (`Dice.massOf_eq_iff_isSeparable`). -/
theorem maximum_agrees_iff_isSeparable (hρ : Scalar.IsCongruent ρ) {s : Session ρ ℚ}
    (hregistry : s.registry = .standard) (hlimits : s.limits.maxOutcomes = none)
    (hrolls : s.limits.maxRolls = none) (htolerance : 0 ≤ s.limits.tolerance) {count sides : Expr ρ}
    (hcount : count.IsNumeric s.BindsNumber) (hsides : sides.IsNumeric s.BindsNumber) :
    let e := Expr.max (.dice count sides)
    ((∃ d, (Session.distribution e).Returns s (.ok d)) ↔ (Session.evaluate e).Succeeds s) ∧
      ∀ d, (Session.distribution e).Returns s (.ok d) →
        ∃ l l', (Session.distribution count).Returns s (.ok l) ∧
          (Session.distribution sides).Returns s (.ok l') ∧
          ((∀ x : Number ρ, d.massOf (.number x) = (Session.evaluate e).chance s (·.isNumber x)) ↔
            Dice.IsSeparable l l') := by
  intro e
  obtain ⟨enter, henter⟩ := Expr.exists_meaning_eq_denote (ρ := ρ) (μ := ℚ) s.renewed.fuel
  have hbuiltins : s.registry.HasBuiltins := hregistry ▸ Registry.hasBuiltins_standard
  have hcount' : (count.denote enter).Agrees s.renewed :=
    Expr.agrees_denote (s := s.renewed) hρ hbuiltins hlimits hrolls enter hcount
  have hsides' : (sides.denote enter).Agrees s.renewed :=
    Expr.agrees_denote (s := s.renewed) hρ hbuiltins hlimits hrolls enter hsides
  have hagrees := Expr.agrees_max (s := s.renewed) hbuiltins enter (e := .dice count sides)
    (Meaning.agrees_max_dice hrolls hlimits hcount' hsides')
  obtain ⟨hiff, hreturns⟩ := Session.of_agrees (e := e) henter htolerance hagrees fun d hd => by
    obtain ⟨l, l', dice, hl, hl', hdice, hd⟩ := hd
    exact Law.isNormalized_of_maximum
      (Dice.isNormalized_of_laws hl.1.normalized hl'.1.normalized hdice) hd
  refine ⟨hiff, fun d hd => ?_⟩
  obtain ⟨l, l', dice, hl, hl', hdice, hmaximum⟩ := hreturns d hd
  refine ⟨l, l', Session.returns_of_hasLaw henter htolerance hl,
    Session.returns_of_hasLaw henter htolerance hl', ?_⟩
  obtain ⟨hcounts, hsides, -⟩ := Dice.of_laws_eq_ok hdice
  obtain ⟨d', hd', hintegral⟩ := Meaning.exists_isDrawnBy_max_dice (s := s.renewed) hrolls hl.1
    hl'.1 hcounts hsides
  have hdrawn : d'.IsDrawnBy (e.denote enter).value s.renewed :=
    Expr.isDrawnBy_max (s := s.renewed) hbuiltins enter hd'
  simp only [← Session.massOf_eq_chance henter hdrawn]
  exact Dice.massOf_eq_iff_isSeparable hl.1.numeric hl'.1.numeric hl.1.normalized hl'.1.normalized
    hdice hmaximum hd'.numeric hintegral

/-- Two dice that share a number of sides, which is one or two, are not separable. The law of their
maximum is not that of its samples.

**Proof sketch.** The chances of two dice, and of one side and of two, are computed and are not
zero. If the masses were the chances of samples, the theorem would say that there is never more than
one die, or that the number of sides is one and the same, and neither is so. -/
theorem maximum_differs_for_random_sides :
    let s : Session (WithBot ℚ) ℚ := .start ⟨none, none, none, 0⟩
    let sides : Expr (WithBot ℚ) := .dice (.literal (.int 1)) (.literal (.int 2))
    let e : Expr (WithBot ℚ) := .max (.dice (.literal (.int 2)) sides)
    ∃ d, (Session.distribution e).Returns s (.ok d) ∧
      ∃ x : Number (WithBot ℚ), d.massOf (.number x) ≠ (Session.evaluate e).chance s (·.isNumber x) := by
  intro s sides e
  have hcount : (Expr.literal (.int 2) : Expr (WithBot ℚ)).IsNumeric s.BindsNumber := .literal _
  have hsides : sides.IsNumeric s.BindsNumber := .dice (.literal _) (.literal _)
  obtain ⟨hiff, hmasses⟩ := maximum_agrees_iff_isSeparable Scalar.isCongruent_exact (s := s) rfl rfl
    rfl le_rfl hcount hsides
  obtain ⟨d, hd⟩ := hiff.2 (Run.succeeds_iff_expect.2 (by decide +kernel))
  obtain ⟨l, l', hl, hl', hseparable⟩ := hmasses d hd
  refine ⟨d, hd, ?_⟩
  by_contra hall
  push Not at hall
  obtain ⟨enter, henter, -, hdrawn⟩ := Session.exists_isDrawnBy Scalar.isCongruent_exact (s := s)
    rfl rfl rfl le_rfl hcount
  obtain ⟨enter', henter', -, hdrawn'⟩ := Session.exists_isDrawnBy Scalar.isCongruent_exact (s := s)
    rfl rfl rfl le_rfl hsides
  have htwo : l.massOf (.number (.int 2)) ≠ 0 := by
    rw [Session.massOf_eq_chance henter (hdrawn l hl)]
    decide +kernel
  have hone' : l'.massOf (.number (.int 1)) ≠ 0 := by
    rw [Session.massOf_eq_chance henter' (hdrawn' l' hl')]
    decide +kernel
  have htwo' : l'.massOf (.number (.int 2)) ≠ 0 := by
    rw [Session.massOf_eq_chance henter' (hdrawn' l' hl')]
    decide +kernel
  obtain ⟨e₂, he₂, hcount₂⟩ := Law.exists_entry_of_mass_ne_zero htwo
  obtain ⟨e₁', he₁', hsides₁⟩ := Law.exists_entry_of_mass_ne_zero hone'
  obtain ⟨e₂', he₂', hsides₂⟩ := Law.exists_entry_of_mass_ne_zero htwo'
  rcases hseparable.1 hall with hsmall | ⟨m, hm, -⟩
  · have hle := hsmall e₂ he₂
    rw [Dice.isInvariant_countAt _ _ hcount₂, Dice.countAt_eq (n := 2) rfl] at hle
    omega
  · have h₁ := hm e₁' he₁'
    have h₂ := hm e₂' he₂'
    rw [Dice.sidesAt_congr hsides₁ (m := 1) rfl] at h₁
    rw [Dice.sidesAt_congr hsides₂ (m := 2) rfl] at h₂
    omega

end DiceCalculus
