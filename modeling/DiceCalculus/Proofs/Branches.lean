import DiceCalculus.Proofs.Agreement
import DiceCalculus.Proofs.Run.Play
import DiceCalculus.Roller

set_option autoImplicit false
set_option relaxedAutoImplicit false

/-!
# Conditionals

Sampled, an `if` evaluates its test and then one of its branches. Its law mixes the laws of both, weighted
by the chances of the test, whatever the law of the test is; and a branch that has no chance is not
evaluated.

## Main definitions

* `Outcome.isZero` — an outcome is the number zero, in whichever form it is written.
* `Meaning.mixInto` — a mixture with the law of a branch added to it, if the branch has a chance.

## Main results

* `Law.chanceOfNonzero_eq_massWhere`, `Law.massOf_zero_eq_massWhere` — the chances of the branches, as
  masses of the test.
* `Expr.play_value_branch`, `Expr.play_law_branch` — an `if`, once its test is evaluated.
* `conditional_mixes_branches` — all of these together.
-/

namespace DiceCalculus

variable {ρ : Type} [Scalar ρ]

open Outcome

/-! ## The chances of a test -/

/-- An outcome is the number zero, in whichever form it is written. -/
def Outcome.isZero (o : Outcome ρ) : Bool :=
  match o.atoms with
  | [.number x] => x.isZero
  | _ => false

/-- An outcome is zero if it compares equal to zero. -/
lemma Outcome.isZero_iff (o : Outcome ρ) :
    o.isZero = true ↔ compare o (single (.number .zero)) = .eq := by
  rw [compare_eq_iff]
  obtain ⟨a, as⟩ := o
  show _ ↔ List.Forall₂ (fun a b : Atom ρ => compare a b = .eq) (a :: as) [.number .zero]
  rw [List.forall₂_cons, List.forall₂_nil_right_iff]
  cases as with
  | nil =>
    cases a with
    | absent => exact iff_of_false nofun nofun
    | number x => exact (Number.isZero_iff x).trans (and_iff_left rfl).symm
  | cons b bs =>
    refine iff_of_false ?_ nofun
    cases a <;> exact nofun

namespace Law

variable (t : Law ρ ℚ)

/-- The chance that a test is zero. -/
theorem massOf_zero_eq_massWhere : t.massOf (.number .zero) = t.massWhere Outcome.isZero := by
  refine (mass_eq_massWhere t _).trans (massWhere_congr fun e _ => ?_)
  rw [Bool.eq_iff_iff, beq_iff_eq, isZero_iff]

/-- The chance that a test is not zero. -/
theorem chanceOfNonzero_eq_massWhere :
    Builtin.chanceOfNonzero t = t.massWhere fun o => !o.isZero := by
  rw [chanceOfNonzero_eq, massWhere_eq_integral]
  refine integral_congr fun e _ => ?_
  unfold indicator
  simp only [← isZero_iff]
  cases e.1.isZero <;> simp

end Law

/-! ## The two branches -/

section Mixtures

variable {μ σ : Type} [Mass μ]

/-- A mixture with the law of a branch added to it. The law is computed only if the branch has a
chance. -/
def Meaning.mixInto (x : Meaning ρ μ) (chance : μ) (mixture : Law ρ μ) : Run ρ μ (Law ρ μ) :=
  if Mass.isPositive chance then x.law >>= fun l => pure (Law.addScaled mixture chance l)
  else pure mixture

variable [Roller σ]

/-- A branch is added to a mixture if it has a law, or no chance. -/
lemma Meaning.play_mixInto {x : Meaning ρ μ} {chance : μ} {l : Law ρ μ} {s s₁ : Session ρ μ}
    {r r₁ : σ} (h : if Mass.isPositive chance then x.law.play s r = (.ok l, s₁, r₁)
      else s₁ = s ∧ r₁ = r) (mixture : Law ρ μ) :
    (x.mixInto chance mixture).play s r = (.ok (mixture.addPositive chance l), s₁, r₁) := by
  unfold mixInto Law.addPositive
  split at h
  · next hpos =>
    rw [if_pos hpos, if_pos hpos]
    exact Run.play_bind_ok h _
  · next hpos =>
    obtain ⟨rfl, rfl⟩ := h
    rw [if_neg hpos, if_neg hpos]
    rfl

namespace Expr

variable {fuel : Nat} {test yes no : Expr ρ} {s s₁ : Session ρ μ} {r r₁ : σ}
  (hbranch : s.registry.find? (Builtin.shape .branch) = some (.builtin .branch))

include hbranch

/-- An `if` is answered by the built-in function. -/
lemma play_answer_branch (m : Mode) :
    (((branch test yes no).meaning fuel).answer m).play s r =
      (Builtin.branch.answer (Meaning.branchArgs (test.meaning fuel) (yes.meaning fuel)
        (no.meaning fuel)) m).play s r := by
  obtain ⟨enter, henter⟩ := exists_meaning_eq_denote (ρ := ρ) (μ := μ) fuel
  simp only [henter, denote_branch]
  rw [Run.play_eq, Run.play_eq, ← Meaning.exec_builtin enter hbranch m]
  cases m <;> rfl

/-- Sampled, an `if` goes on with the branch that the test chooses. -/
theorem play_value_branch {v : Value ρ μ} {n : Number ρ}
    (htest : (test.meaning fuel).value.play s r = (.ok v, s₁, r₁)) (hv : v.toNumber = .ok n) :
    ((branch test yes no).meaning fuel).value.play s r =
      (if n.isZero then (no.meaning fuel).value else (yes.meaning fuel).value).play s₁ r₁ := by
  refine (play_answer_branch hbranch .sample).trans ?_
  show (Builtin.value _ .branch).play s r = _
  rw [Meaning.branch_value_eq, Run.withNumber, Run.play_bind_ok htest, hv]
  rfl

/-- The law of an `if` mixes the branches that have a chance in the law of the test. -/
theorem play_law_branch {t : Law ρ μ}
    (htest : (test.meaning fuel).law.play s r = (.ok t, s₁, r₁)) :
    ((branch test yes no).meaning fuel).law.play s r =
      ((yes.meaning fuel).mixInto (Builtin.chanceOfNonzero t) .empty >>=
        (no.meaning fuel).mixInto (t.massOf (.number .zero))).play s₁ r₁ := by
  refine (play_answer_branch hbranch .exact).trans ?_
  show (Builtin.exact _ .branch).play s r = _
  rw [Meaning.branch_exact_eq, Run.play_bind_ok htest, Meaning.mixBranch_eq rfl]
  refine congrArg (Run.play · s₁ r₁) (congrArg (_ >>= ·) (funext fun mixture => ?_))
  exact Meaning.mixBranch_eq rfl _ mixture

end Expr

end Mixtures

/-- The law of an `if` gives every outcome its masses in the laws of the branches, weighted by the
chances of these. -/
lemma Law.mass_mixture {t : Law ρ ℚ} (ht : t.Each fun _ p => 0 ≤ p) (l l' : Law ρ ℚ)
    (o : Outcome ρ) : (t.mixture l l').mass o =
      t.massWhere (fun o => !o.isZero) * l.mass o + t.massWhere Outcome.isZero * l'.mass o := by
  simp only [mass_eq_integral, integral_mixture_eq (isInvariant_indicator o) ht,
    chanceOfNonzero_eq_massWhere, massOf_zero_eq_massWhere]

/-- The law of an `if` mixes its branches by the chances that the test is not zero and that it is. The
test may have any number of outcomes, of any number of components, with masses that are not negative. If
each branch with a chance has a law, the branches are evaluated in turn and the law of the `if` is the
mixture of theirs. A branch without a chance is not evaluated: with any other in its place the law is
the same, and so are the session that is left and the dice. Sampled, the same holds of the branch that
the test does not choose.

**Proof sketch.** The law of the test decides what is evaluated: the chances of its outcomes are the
masses that the code computes, and a branch is taken in if its chance is positive
(`Meaning.play_mixInto`). The result is the mixture `Law.mixture`, of which the masses are known. A
chance that is zero, or a number that does not choose the branch, leaves a run in which the branch
does not occur. -/
theorem conditional_mixes_branches {σ : Type} [Roller σ] (fuel : Nat) (test yes no : Expr ρ)
    (s : Session ρ ℚ) (r : σ)
    (hbranch : s.registry.find? (Builtin.shape .branch) = some (.builtin .branch)) :
    (∀ (t : Law ρ ℚ) (s₁ : Session ρ ℚ) (r₁ : σ),
      (test.meaning fuel).law.play s r = (.ok t, s₁, r₁) → (t.Each fun _ p => 0 ≤ p) →
      let chance := t.massWhere fun o => !o.isZero
      let chance' := t.massWhere Outcome.isZero
      (∀ (l l' : Law ρ ℚ) (s₂ s₃ : Session ρ ℚ) (r₂ r₃ : σ),
        (if 0 < chance then (yes.meaning fuel).law.play s₁ r₁ = (.ok l, s₂, r₂)
          else s₂ = s₁ ∧ r₂ = r₁) →
        (if 0 < chance' then (no.meaning fuel).law.play s₂ r₂ = (.ok l', s₃, r₃)
          else s₃ = s₂ ∧ r₃ = r₂) →
        ∃ d, ((Expr.branch test yes no).meaning fuel).law.play s r = (.ok d, s₃, r₃) ∧
          ∀ o, d.mass o = chance * l.mass o + chance' * l'.mass o) ∧
      (chance = 0 → ∀ yes', ((Expr.branch test yes' no).meaning fuel).law.play s r =
        ((Expr.branch test yes no).meaning fuel).law.play s r) ∧
      (chance' = 0 → ∀ no', ((Expr.branch test yes no').meaning fuel).law.play s r =
        ((Expr.branch test yes no).meaning fuel).law.play s r)) ∧
    ∀ (v : Value ρ ℚ) (n : Number ρ) (s₁ : Session ρ ℚ) (r₁ : σ),
      (test.meaning fuel).value.play s r = (.ok v, s₁, r₁) → v.toNumber = .ok n →
      (n.isZero = true → ∀ yes', ((Expr.branch test yes' no).meaning fuel).value.play s r =
        ((Expr.branch test yes no).meaning fuel).value.play s r) ∧
      (n.isZero = false → ∀ no', ((Expr.branch test yes no').meaning fuel).value.play s r =
        ((Expr.branch test yes no).meaning fuel).value.play s r) := by
  refine ⟨fun t s₁ r₁ htest ht => ⟨fun l l' s₂ s₃ r₂ r₃ hyes hno => ?_, fun hchance yes' => ?_,
    fun hchance' no' => ?_⟩, fun v n s₁ r₁ htest hv => ⟨fun hn yes' => ?_, fun hn no' => ?_⟩⟩
  · refine ⟨t.mixture l l', ?_, Law.mass_mixture ht l l'⟩
    rw [← Law.chanceOfNonzero_eq_massWhere] at hyes
    rw [← Law.massOf_zero_eq_massWhere] at hno
    simp only [← Mass.isPositive_iff] at hyes hno
    rw [Expr.play_law_branch hbranch htest, Run.play_bind_ok (Meaning.play_mixInto hyes _)]
    exact Meaning.play_mixInto hno _
  · rw [← Law.chanceOfNonzero_eq_massWhere] at hchance
    rw [Expr.play_law_branch hbranch htest, Expr.play_law_branch hbranch htest, hchance]
    rfl
  · rw [← Law.massOf_zero_eq_massWhere] at hchance'
    rw [Expr.play_law_branch hbranch htest, Expr.play_law_branch hbranch htest, hchance']
    rfl
  · rw [Expr.play_value_branch hbranch htest hv, Expr.play_value_branch hbranch htest hv, if_pos hn]
    rw [if_pos hn]
  · rw [Expr.play_value_branch hbranch htest hv, Expr.play_value_branch hbranch htest hv]
    simp only [hn]
    rfl

/-- A test with three outcomes, of which one is zero written as a real: the law of the `if`, and the
same test sampled where it is zero. With a test that is never zero the second branch is of no account.

**Proof sketch.** Expressions of literals and rolls leave the session and the roller as they are
(`Expr.agrees_denote`), so that the laws of the test and of the branches are computed and the
theorem is applied to them. -/
theorem conditional_mixes_branches_of_real_zero :
    let number (n : Int32) : Expr (WithBot ℚ) := .literal (.int n)
    let roll : Expr (WithBot ℚ) := .dice (number 1) (number 3)
    let test : Expr (WithBot ℚ) :=
      .binary .mul (.binary .sub roll (number 2)) (.literal (.real (1 / 2 : ℚ)))
    let s : Session (WithBot ℚ) ℚ := .start ⟨none, none, none, 0⟩
    let r : Stepper := ⟨2, 1⟩
    (∃ d, ((Expr.branch test (number 10) roll).meaning 1).law.play s r = (.ok d, s, r) ∧
      d.massOf (.number (.int 10)) = 2 / 3 ∧ d.massOf (.number (.int 3)) = 1 / 9) ∧
    (∀ no', ((Expr.branch roll (number 10) no').meaning 1).law.play s r =
      ((Expr.branch roll (number 10) (.var "unbound")).meaning 1).law.play s r) ∧
    ∀ yes', ((Expr.branch test yes' roll).meaning 1).value.play s r =
      ((Expr.branch test (.var "unbound") roll).meaning 1).value.play s r := by
  intro number roll test s r
  let lawOf (e : Expr (WithBot ℚ)) : Law (WithBot ℚ) ℚ :=
    ((e.meaning 1).law.play s r).1.toOption.getD .empty
  have hroll : roll.IsNumeric s.BindsNumber := .dice (.literal _) (.literal _)
  have htest : test.IsNumeric s.BindsNumber := .binary _ (.binary _ hroll (.literal _)) (.literal _)
  have hlaw {e : Expr (WithBot ℚ)} (he : e.IsNumeric s.BindsNumber)
      (hok : ((e.meaning 1).law.play s r).1.toOption.isSome = true) :
      (e.meaning 1).law.play s r = (.ok (lawOf e), s, r) := by
    obtain ⟨enter, henter⟩ := Expr.exists_meaning_eq_denote (ρ := WithBot ℚ) (μ := ℚ) 1
    obtain ⟨x, hx, -⟩ := Expr.agrees_denote Scalar.isCongruent_exact
      Registry.hasBuiltins_standard rfl rfl enter he
    have hplay : (e.meaning 1).law.play s r = (x, s, r) :=
      Run.play_of_done r ((congrArg (·.law.exec s) (henter e)).trans (hx s s.charged_self))
    simp only [lawOf, hplay] at hok ⊢
    cases x with
    | error e => cases hok
    | ok l => rfl
  have hyes : ((number 10).meaning 1).law.play s r = (.ok (.certain (.number (.int 10))), s, r) := rfl
  have hbranch : s.registry.find? (Builtin.shape .branch) = some (.builtin .branch) :=
    Registry.hasBuiltins_standard .branch
  refine ⟨?_, fun no' => ?_, fun yes' => ?_⟩
  · obtain ⟨hexact, -⟩ := conditional_mixes_branches 1 test (number 10) roll s r hbranch
    obtain ⟨hmix, -⟩ := hexact _ s r (hlaw htest (by decide +kernel)) (by
      unfold Law.Each
      decide +kernel)
    have hchance : 0 < (lawOf test).massWhere fun o => !o.isZero := by decide +kernel
    have hchance' : 0 < (lawOf test).massWhere Outcome.isZero := by decide +kernel
    obtain ⟨d, hd, hmass⟩ := hmix (.certain (.number (.int 10))) (lawOf roll) s s r r
      (if_pos hchance ▸ hyes) (if_pos hchance' ▸ hlaw hroll (by decide +kernel))
    refine ⟨d, hd, ?_, ?_⟩
    · exact (hmass _).trans (by decide +kernel)
    · exact (hmass _).trans (by decide +kernel)
  · obtain ⟨hexact, -⟩ := conditional_mixes_branches 1 roll (number 10) (.var "unbound") s r hbranch
    refine (hexact _ s r (hlaw hroll (by decide +kernel)) (by
      unfold Law.Each
      decide +kernel)).2.2 (by decide +kernel) no'
  · obtain ⟨-, hsampled⟩ := conditional_mixes_branches 1 test (.var "unbound") roll s r hbranch
    have hzero : (((test.meaning 1).value.play s r).1.toOption.bind
        (·.toNumber.toOption)).map Number.isZero = some true := by decide +kernel
    rcases hplay : (test.meaning 1).value.play s r with ⟨e | v, s₁, r₁⟩ <;> rw [hplay] at hzero
    · cases hzero
    · cases v with
      | number n => exact (hsampled _ n s₁ r₁ hplay rfl).1 (Option.some.inj hzero) yes'
      | sequence vs => cases hzero
      | law l => cases hzero

end DiceCalculus
