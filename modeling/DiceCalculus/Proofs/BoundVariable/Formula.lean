import DiceCalculus.Proofs.Agreement
import DiceCalculus.Proofs.Certainty.Laws
import DiceCalculus.Proofs.Law.Expect

set_option autoImplicit false
set_option relaxedAutoImplicit false

/-!
# Formulas that read a variable

A formula is an expression with places in which something is read. What it comes to on average is
determined by the average over what is read, if that is drawn anew at every place. Drawing it once,
and reading the same number everywhere, comes to the same if there is one place at most on every way
through the formula.

## Main definitions

* `Formula` — numbers, operators, rolls and conditionals around places in which something is read.
* `Formula.fill` — the formula as an expression, with another expression at the places.
* `Formula.reads` — the greatest number of places on a way through the formula.
* `Formula.expect` — the expected value of a function of the formula, given that of what is read.

## Main results

* `Formula.expect_of_reads_eq_zero` — a formula without places does not depend on what is read.
* `Formula.isAveraging_expect` — the expected value of a formula may be exchanged with integrals.
* `Formula.expect_eq_of_reads_le_one` — a formula with one place is an average over what is read.

## Design

A sample that fails counts as zero. An expected value is then one of numbers only, and nothing needs
to be said about the samples for which a formula has no value.
-/

namespace DiceCalculus

variable {ρ : Type}

/-- Numbers, operators, rolls and conditionals around places in which something is read. -/
inductive Formula (ρ : Type) where
  /-- A place. -/
  | read
  /-- A number. -/
  | literal (x : Number ρ)
  /-- An operator between two formulas. -/
  | binary (op : Operator) (left right : Formula ρ)
  /-- A roll of a number of dice with a number of sides. -/
  | dice (count sides : Formula ρ)
  /-- A test and two branches. -/
  | branch (test yes no : Formula ρ)

namespace Formula

/-- The formula with an expression at its places. -/
def fill : Formula ρ → Expr ρ → Expr ρ
  | read, e => e
  | literal x, _ => .literal x
  | binary op left right, e => .binary op (left.fill e) (right.fill e)
  | dice count sides, e => .dice (count.fill e) (sides.fill e)
  | branch test yes no, e => .branch (test.fill e) (yes.fill e) (no.fill e)

/-- The greatest number of places on a way through the formula. Of two branches only one is taken. -/
def reads : Formula ρ → Nat
  | read => 1
  | literal _ => 0
  | binary _ left right => left.reads + right.reads
  | dice count sides => count.reads + sides.reads
  | branch test yes no => test.reads + max yes.reads no.reads

end Formula

variable [Scalar ρ]

open Outcome

/-! ## Operators and rolls -/

/-- The average of a function of the sum of a roll. It is zero if the operands are no numbers of dice
and of sides. -/
def Dice.sumAverage (g : Number ρ → ℚ) (x y : Number ρ) : ℚ :=
  average (fun faces => g (faces.foldl (· + ·) .zero)) (single (.number x) ++ single (.number y))

/-- Operands that are not both numbers of dice and of sides have average zero. -/
lemma Dice.sumAverage_eq_zero (g : Number ρ → ℚ) {x y : Number ρ}
    (h : ∀ n m, count (μ := ℚ) x = .ok n → sides (μ := ℚ) y ≠ .ok m) : sumAverage g x y = 0 := by
  unfold sumAverage average
  split
  · next n m hop =>
    obtain ⟨_, _, hxy, hn, hm⟩ := operands_eq_ok_iff.1 hop
    cases hxy
    exact absurd hm (h n m hn)
  · rfl

section Invariant

variable {g : Number ρ → ℚ} (hg : Number.IsInvariant g)

/-- The average over a roll does not depend on how the number of dice is written. -/
lemma Dice.isInvariant_sumAverage_count (g : Number ρ → ℚ) (y : Number ρ) :
    Number.IsInvariant fun x => Dice.sumAverage g x y := fun _ _ h =>
  (isInvariant_average _).append_left _ _ _ ((compare_number_eq_iff _ _).2 h)

/-- The average over a roll does not depend on how the number of sides is written. -/
lemma Dice.isInvariant_sumAverage_sides (g : Number ρ → ℚ) (x : Number ρ) :
    Number.IsInvariant fun y => Dice.sumAverage g x y := fun _ _ h =>
  (isInvariant_average _).append_right _ _ _ ((compare_number_eq_iff _ _).2 h)

include hg

/-- Operands that compare equal have values at which an invariant function is the same. -/
lemma Operator.elim_value?_congr {op : Operator} (hop : op.IsCongruent ρ) {x x' y y' : Number ρ}
    (hx : compare x x' = .eq) (hy : compare y y' = .eq) :
    (op.value? x y).elim 0 g = (op.value? x' y').elim 0 g := by
  have h := hop x x' y y' hx hy
  cases hz : op.value? x y with
  | none =>
    cases hz' : op.value? x' y' with
    | none => rfl
    | some z' => rw [hz, hz'] at h; cases h
  | some z =>
    cases hz' : op.value? x' y' with
    | none => rw [hz, hz'] at h; cases h
    | some z' =>
      rw [hz, hz'] at h
      obtain ⟨h⟩ := h
      exact hg z z' h

end Invariant

/-- The value of an operator at two numbers, as an outcome. -/
lemma Operator.onNumber_onOutcomes (op : Operator) (g : Number ρ → ℚ) (x y : Number ρ) :
    onNumber g (op.onOutcomes (single (.number x)) (single (.number y))) =
      (op.value? x y).elim 0 g := by
  have hvalue : op.onOutcomes (single (.number x)) (single (.number y)) =
      single ((Atom.number <$> op.apply (μ := ℚ) x y).toOption.getD .absent) := rfl
  rw [hvalue, Operator.apply]
  cases op.value? x y <;> rfl

/-! ## Expected values under the laws of forms -/

section Laws

variable {limits : Limits ℚ} {l l' d : Law ρ ℚ} {g : Number ρ → ℚ} (hg : Number.IsInvariant g)
  (hl : l.IsNumeric)

include hg hl

/-- The expected value under the law of an operator. -/
lemma Law.expect_operate {op : Operator} (hop : op.IsCongruent ρ) (hl' : l'.IsNumeric)
    (h : operate limits op l l' = .ok d) :
    d.expect g = l.expect fun x => l'.expect fun y => (op.value? x y).elim 0 g := by
  unfold expect
  rw [integral_operate hop (isInvariant_onNumber hg) h]
  refine integral_congr fun e he => ?_
  obtain ⟨⟨x, hx⟩, -⟩ := hl e he
  rw [hx, onNumber_number]
  refine integral_congr fun e' he' => ?_
  obtain ⟨⟨y, hy⟩, -⟩ := hl' e' he'
  rw [hy, onNumber_number, Operator.onNumber_onOutcomes]

/-- The expected value under the law of a roll. -/
lemma Dice.expect_law (hadd : Operator.IsCongruent ρ .add) (hl' : l'.IsNumeric)
    (h : law limits l l' = .ok d) :
    d.expect g = l'.expect fun y => l.expect fun x => sumAverage g x y := by
  unfold Law.expect
  rw [integral_law hadd (isInvariant_onNumber hg) h, Law.integral_comm]
  refine Law.integral_congr fun e' he' => ?_
  obtain ⟨⟨y, hy⟩, -⟩ := hl' e' he'
  rw [hy, onNumber_number]
  refine Law.integral_congr fun e he => ?_
  obtain ⟨⟨x, hx⟩, -⟩ := hl e he
  rw [hx, onNumber_number]
  rfl

/-- The expected value under a mixture of branches. A branch without a chance has no part in it. -/
lemma Law.expect_mixture {l₁ l₀ : Law ρ ℚ} {a b : ℚ}
    (h₁ : Mass.isPositive (Builtin.chanceOfNonzero l) = true → l₁.expect g = a)
    (h₀ : Mass.isPositive (l.massOf (.number .zero)) = true → l₀.expect g = b) :
    (l.mixture l₁ l₀).expect g = l.expect fun x => if x.isZero then b else a := by
  have hmixture := integral_mixture (isInvariant_onNumber hg) hl.nonneg l₁ l₀
  refine hmixture.trans (integral_congr fun e he => ?_)
  obtain ⟨⟨x, hx⟩, -⟩ := hl e he
  rw [hx, onNumber_number]
  by_cases hzero : compare (single (.number x)) (single (.number .zero)) = .eq
  · have hb : l₀.integral (onNumber g) = b := h₀ ((Mass.isPositive_iff _).2
      ((massOf_zero_pos_iff hl.pos).2 fun hnone => hnone e he (hx ▸ hzero)))
    rw [if_pos ((Number.isZero_iff x).2 ((compare_number_eq_iff _ _).1 hzero)),
      indicator_of_eq hzero, hb]
    ring
  · have ha : l₁.integral (onNumber g) = a := h₁ ((Mass.isPositive_iff _).2
      ((chanceOfNonzero_pos_iff hl.pos).2 fun hall => hzero (hx ▸ hall e he)))
    rw [if_neg fun h => hzero ((compare_number_eq_iff _ _).2 ((Number.isZero_iff x).1 h)),
      indicator_of_ne hzero, ha]
    ring

end Laws

namespace Formula

variable {E E' : (Number ρ → ℚ) → ℚ}

/-- The expected value of a function of the formula, if an expected value of what is read is given
and what is read is drawn anew at every place. No value counts as zero. -/
def expect (E : (Number ρ → ℚ) → ℚ) : Formula ρ → (Number ρ → ℚ) → ℚ
  | read, g => E g
  | literal x, g => g x
  | binary op left right, g =>
    left.expect E fun x => right.expect E fun y => (op.value? x y).elim 0 g
  | dice count sides, g =>
    sides.expect E fun y => count.expect E fun x => Dice.sumAverage g x y
  | branch test yes no, g =>
    test.expect E fun x => if x.isZero then no.expect E g else yes.expect E g

/-- A formula without places does not depend on what is read. -/
theorem expect_of_reads_eq_zero {F : Formula ρ} (hF : F.reads = 0) (E E' : (Number ρ → ℚ) → ℚ)
    (g : Number ρ → ℚ) : F.expect E g = F.expect E' g := by
  induction F generalizing g with
  | read => exact absurd hF one_ne_zero
  | literal x => rfl
  | binary op left right ihl ihr =>
    obtain ⟨hl, hr⟩ := Nat.add_eq_zero_iff.1 hF
    simp only [expect, ihl hl, ihr hr]
  | dice count sides ihc ihs =>
    obtain ⟨hc, hs⟩ := Nat.add_eq_zero_iff.1 hF
    simp only [expect, ihc hc, ihs hs]
  | branch test yes no iht ihy ihn =>
    have hreads : test.reads = 0 ∧ yes.reads = 0 ∧ no.reads = 0 := by
      simp only [reads] at hF
      omega
    simp only [expect, iht hreads.1, ihy hreads.2.1, ihn hreads.2.2]

/-- The expected value of an invariant function of a formula is known by those of invariant functions of
what is read. -/
lemma expect_congr (hρ : Scalar.IsCongruent ρ) (hE : ∀ {g}, Number.IsInvariant g → E g = E' g)
    {F : Formula ρ} {g : Number ρ → ℚ} (hg : Number.IsInvariant g) : F.expect E g = F.expect E' g := by
  have hrefl (a : Number ρ) : compare a a = .eq := Std.ReflCmp.compare_self
  induction F generalizing g with
  | read => exact hE hg
  | literal x => rfl
  | binary op left right ihl ihr =>
    have hright (x : Number ρ) : Number.IsInvariant fun y => (op.value? x y).elim 0 g :=
      fun y y' hy => Operator.elim_value?_congr hg (hρ op) (hrefl x) hy
    simp only [expect, ihr (hright _)]
    exact ihl fun x x' hx => congrArg _ (funext fun y =>
      Operator.elim_value?_congr hg (hρ op) hx (hrefl y))
  | dice count sides ihc ihs =>
    simp only [expect, ihc (Dice.isInvariant_sumAverage_count g _)]
    exact ihs fun y y' hy => congrArg _ (funext fun x =>
      Dice.isInvariant_sumAverage_sides g x y y' hy)
  | branch test yes no iht ihy ihn =>
    simp only [expect, ihy hg, ihn hg]
    exact iht fun x x' hx => by rw [Number.isZero_congr hx]

/-- The expected value of a formula may be exchanged with integrals if that of what is read may.

**Proof sketch.** By induction over the formula. What a form adds to its parts is a result that may
be missing, an average over rolls or a choice between two values; each of these exchanges with an
integral, and the parts do so by induction. -/
theorem isAveraging_expect (hE : IsAveraging ρ E) (F : Formula ρ) : IsAveraging ρ (F.expect E) := by
  induction F with
  | read => exact hE
  | literal x => exact fun l f => rfl
  | binary op left right ihl ihr =>
    intro l f
    have hvalue (x y : Number ρ) : ((op.value? x y).elim 0 fun z => l.integral (f z)) =
        l.integral fun o => (op.value? x y).elim 0 fun z => f z o := by
      cases op.value? x y with
      | none => simp [Law.integral]
      | some z => rfl
    simp only [expect, hvalue]
    simp only [ihr l, ihl l]
  | dice count sides ihc ihs =>
    intro l f
    have hroll (x y : Number ρ) : Dice.sumAverage (fun z => l.integral (f z)) x y =
        l.integral fun o => Dice.sumAverage (fun z => f z o) x y := by
      unfold Dice.sumAverage Dice.average
      split
      · exact isAveraging_rollAverage _ _ l _
      · simp [Law.integral]
    simp only [expect, hroll]
    simp only [ihc l, ihs l]
  | branch test yes no iht ihy ihn =>
    intro l f
    have hchosen (x : Number ρ) :
        (if x.isZero then no.expect E fun z => l.integral (f z)
          else yes.expect E fun z => l.integral (f z)) =
        l.integral fun o => if x.isZero then no.expect E fun z => f z o
          else yes.expect E fun z => f z o := by
      rw [ihn l, ihy l]
      split <;> rfl
    simp only [expect, hchosen]
    exact iht l _

/-! ## Reading the same number everywhere -/

section Split

variable {l : Law ρ ℚ} {F : Formula ρ}
  {k : ((Number ρ → ℚ) → ℚ) → Number ρ → ℚ}

/-- The part of a formula that comes first reads nothing, and the rest is an average. -/
lemma expect_eq_of_first (hF : F.reads = 0)
    (hk : ∀ x, k l.expect x = l.expect fun u => k (fun g => g u) x) :
    F.expect l.expect (k l.expect) =
      l.expect fun u => F.expect (fun g => g u) (k fun g => g u) :=
  calc F.expect l.expect (k l.expect)
      = F.expect l.expect fun x => l.expect fun u => k (fun g => g u) x :=
        congrArg _ (funext hk)
    _ = l.expect fun u => F.expect l.expect (k fun g => g u) :=
        (isAveraging_expect l.isAveraging_expect F).expect_comm l _
    _ = l.expect fun u => F.expect (fun g => g u) (k fun g => g u) :=
        congrArg _ (funext fun _ => expect_of_reads_eq_zero hF _ _ _)

/-- The part of a formula that comes first is an average, and the rest reads nothing. -/
lemma expect_eq_of_last
    (hF : ∀ g, F.expect l.expect g = l.expect fun u => F.expect (fun g => g u) g)
    (hk : ∀ E E' x, k E x = k E' x) :
    F.expect l.expect (k l.expect) =
      l.expect fun u => F.expect (fun g => g u) (k fun g => g u) := by
  rw [hF]
  exact congrArg _ (funext fun _ => congrArg _ (funext fun x => hk _ _ x))

/-- What is read at one place at most on every way through a formula may be drawn beforehand.

**Proof sketch.** By induction over the formula. Of two parts of which one is evaluated after the
other, one reads nothing. If it is the first, the expected value that it gives is exchanged with the
expected value of what is read. -/
theorem expect_eq_of_reads_le_one (hl : l.IsNumeric) (hone : l.IsNormalized) (hF : F.reads ≤ 1)
    (g : Number ρ → ℚ) : F.expect l.expect g = l.expect fun u => F.expect (fun g => g u) g := by
  have hnone {G : Formula ρ} (hG : G.reads = 0) (g : Number ρ → ℚ) :
      G.expect l.expect g = l.expect fun u => G.expect (fun g => g u) g := by
    rw [← Law.expect_const hl hone (G.expect l.expect g)]
    exact congrArg _ (funext fun _ => expect_of_reads_eq_zero hG _ _ _)
  induction F generalizing g with
  | read => rfl
  | literal x => exact hnone rfl g
  | binary op left right ihl ihr =>
    simp only [reads] at hF
    by_cases h : left.reads = 0
    · exact expect_eq_of_first (k := fun E x => right.expect E fun y => (op.value? x y).elim 0 g)
        h fun x => ihr (by omega) _
    · exact expect_eq_of_last (k := fun E x => right.expect E fun y => (op.value? x y).elim 0 g)
        (ihl (by omega)) fun E E' x => expect_of_reads_eq_zero (by omega) E E' _
  | dice count sides ihc ihs =>
    simp only [reads] at hF
    by_cases h : sides.reads = 0
    · exact expect_eq_of_first (k := fun E y => count.expect E fun x => Dice.sumAverage g x y)
        h fun y => ihc (by omega) _
    · exact expect_eq_of_last (k := fun E y => count.expect E fun x => Dice.sumAverage g x y)
        (ihs (by omega)) fun E E' y => expect_of_reads_eq_zero (by omega) E E' _
  | branch test yes no iht ihy ihn =>
    simp only [reads] at hF
    by_cases h : test.reads = 0
    · refine expect_eq_of_first
        (k := fun E x => if x.isZero then no.expect E g else yes.expect E g) h fun x => ?_
      split
      · exact ihn (by omega) g
      · exact ihy (by omega) g
    · refine expect_eq_of_last
        (k := fun E x => if x.isZero then no.expect E g else yes.expect E g)
        (iht (by omega)) fun E E' x => ?_
      rw [expect_of_reads_eq_zero (by omega : no.reads = 0) E E',
        expect_of_reads_eq_zero (by omega : yes.reads = 0) E E']

/-- A number that is certain may be read at any number of places. -/
lemma expect_eq_of_isCertain {a : Number ρ} (hl : l.IsCertain a) (g : Number ρ → ℚ) :
    F.expect l.expect g = l.expect fun u => F.expect (fun g => g u) g := by
  have hexpect : l.expect = fun g => g a := by
    funext h
    unfold Law.expect Law.integral
    rw [hl]
    simp
  rw [hexpect]

end Split

end Formula

end DiceCalculus
