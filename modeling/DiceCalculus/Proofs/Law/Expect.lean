import DiceCalculus.Proofs.Law.Sum
import DiceCalculus.Proofs.Run.Mean

set_option autoImplicit false
set_option relaxedAutoImplicit false

/-!
# The expected value of a number

A law of numbers gives every function of a number an expected value. An expected value can be taken
of a function that is itself one, under another law or over the faces of dice; then the two may be
taken in either order.

## Main definitions

* `Number.IsInvariant` — functions of a number that do not depend on how it is written.
* `Outcome.onNumber` — a function of a number as one of an outcome.
* `Law.expect` — the expected value of a function of a number under a law.
* `IsAveraging` — a functional that may be exchanged with all integrals.

## Main results

* `Law.massOf_eq_expect` — the mass of a number is an expected value.
* `isAveraging_of_linear`, `Law.isAveraging_expect` — averages over dice, samples and laws.
* `IsAveraging.expect_comm` — two expected values may be exchanged.
-/

namespace DiceCalculus

variable {ρ μ : Type} [Scalar ρ] {α : Type}

open Outcome

/-! ## Functions of a number -/

/-- A function of a number that does not depend on how the number is written. -/
def Number.IsInvariant (g : Number ρ → ℚ) : Prop := ∀ x y, compare x y = .eq → g x = g y

/-- One at numbers equal to a given one and zero elsewhere. -/
def Number.indicator (x y : Number ρ) : ℚ := if compare y x = .eq then 1 else 0

/-- Which of two numbers that compare equal is compared makes no difference. -/
lemma Number.isInvariant_indicator (x : Number ρ) : IsInvariant (indicator x) := fun y z h => by
  unfold indicator
  rw [Std.TransCmp.congr_left h]

namespace Outcome

variable {g : Number ρ → ℚ}

omit [Scalar ρ] in
/-- The value of a function at the number that an outcome is. It is zero at all other outcomes. -/
def onNumber (g : Number ρ → ℚ) : Outcome ρ → ℚ
  | ⟨.number x, []⟩ => g x
  | _ => 0

omit [Scalar ρ] in
/-- The value at an outcome that is a number. -/
@[simp] lemma onNumber_number (g : Number ρ → ℚ) (x : Number ρ) :
    onNumber g (single (.number x)) = g x := rfl

omit [Scalar ρ] in
/-- The value at an outcome that is no number. -/
lemma onNumber_eq_zero {o : Outcome ρ} (h : ∀ x, o ≠ single (.number x)) : onNumber g o = 0 := by
  obtain ⟨a, as⟩ := o
  cases a with
  | absent => rfl
  | number x =>
    cases as with
    | nil => exact absurd rfl (h x)
    | cons b bs => rfl

omit [Scalar ρ] in
/-- The function that is zero at all numbers is zero at all outcomes. -/
lemma onNumber_zero (o : Outcome ρ) : onNumber (fun _ => 0) o = 0 := by
  by_cases ho : ∃ x, o = single (.number x)
  · obtain ⟨x, rfl⟩ := ho
    rfl
  · exact onNumber_eq_zero (not_exists.1 ho)

/-- The value at an outcome does not depend on how numbers are written. -/
lemma isInvariant_onNumber (hg : Number.IsInvariant g) : IsInvariant (onNumber g) := by
  intro o p hop
  by_cases ho : ∃ x, o = single (.number x)
  · obtain ⟨x, rfl⟩ := ho
    obtain ⟨y, rfl, hxy⟩ := exists_of_compare_number_eq hop
    exact hg x y hxy
  · rw [onNumber_eq_zero (not_exists.1 ho), onNumber_eq_zero]
    rintro y rfl
    obtain ⟨x, rfl, -⟩ := exists_of_compare_number_eq (Std.OrientedCmp.eq_symm hop)
    exact ho ⟨x, rfl⟩

/-- Being equal to a number is the same for numbers and for outcomes. -/
lemma onNumber_indicator (x : Number ρ) (o : Outcome ρ) :
    onNumber (Number.indicator x) o = indicator (single (.number x)) o := by
  by_cases ho : ∃ y, o = single (.number y)
  · obtain ⟨y, rfl⟩ := ho
    simp only [onNumber_number, Number.indicator, indicator, compare_number_eq_iff]
  · rw [onNumber_eq_zero (not_exists.1 ho), indicator_of_ne]
    intro h
    obtain ⟨y, rfl, -⟩ := exists_of_compare_number_eq (Std.OrientedCmp.eq_symm h)
    exact ho ⟨y, rfl⟩

end Outcome

/-! ## Expected values -/

namespace Law

variable {l : Law ρ ℚ} {g h : Number ρ → ℚ}

/-- The expected value of a function of a number under a law. -/
def expect (l : Law ρ ℚ) (g : Number ρ → ℚ) : ℚ := l.integral (onNumber g)

/-- The mass of a number is an expected value. -/
theorem massOf_eq_expect (l : Law ρ ℚ) (x : Number ρ) :
    l.massOf (.number x) = l.expect (Number.indicator x) := by
  show l.mass _ = _
  rw [mass_eq_integral]
  exact integral_congr fun e _ => (onNumber_indicator x e.1).symm

/-- Functions that agree on the numbers of a law have the same expected value. -/
lemma expect_congr (hl : l.IsNumeric)
    (hgh : ∀ x, (∃ p, (single (.number x), p) ∈ l.entries) → g x = h x) :
    l.expect g = l.expect h := by
  refine integral_congr fun e he => ?_
  obtain ⟨⟨x, hx⟩, -⟩ := hl e he
  rw [hx, onNumber_number, onNumber_number]
  exact hgh x ⟨e.2, hx ▸ he⟩

/-- A constant factor moves out of an expected value. -/
lemma expect_const_mul (l : Law ρ ℚ) (c : ℚ) (g : Number ρ → ℚ) :
    l.expect (fun x => c * g x) = c * l.expect g := by
  unfold expect
  rw [← integral_const_mul]
  refine integral_congr fun e _ => ?_
  by_cases he : ∃ x, e.1 = single (.number x)
  · obtain ⟨x, hx⟩ := he
    simp only [hx, onNumber_number]
  · simp only [onNumber_eq_zero (not_exists.1 he), mul_zero]

/-- Numbers that compare equal have the same mass. -/
lemma isInvariant_massOf (l : Law ρ ℚ) : Number.IsInvariant fun x => l.massOf (.number x) := by
  intro x y h
  have hindicator : Number.indicator x = Number.indicator y := by
    funext z
    unfold Number.indicator
    rw [Std.TransCmp.congr_right h]
  show l.massOf (.number x) = l.massOf (.number y)
  rw [massOf_eq_expect, massOf_eq_expect, hindicator]

/-- The expected value of a constant under a law with mass one. -/
lemma expect_const (hl : l.IsNumeric) (hone : l.IsNormalized) (c : ℚ) :
    l.expect (fun _ => c) = c := by
  refine Eq.trans (integral_congr fun e he => ?_) (hone.integral_const c)
  obtain ⟨⟨x, hx⟩, -⟩ := hl e he
  rw [hx, onNumber_number]

/-- The numbers of a law have a mass. -/
lemma IsNumeric.massOf_ne_zero (hl : l.IsNumeric) {x : Number ρ} {p : ℚ}
    (hx : (single (.number x), p) ∈ l.entries) : l.massOf (.number x) ≠ 0 := by
  show l.mass _ ≠ 0
  rw [mass_eq_integral, ne_eq, integral_eq_zero_iff hl.pos fun e _ => indicator_nonneg _ e.1]
  intro h
  have hone := h _ hx
  rw [indicator_of_eq Std.ReflCmp.compare_self] at hone
  exact one_ne_zero hone

end Law

/-! ## Exchanging expected values -/

/-- A functional that may be exchanged with the integral over any law. -/
def IsAveraging (ρ : Type) [Scalar ρ] (E : (α → ℚ) → ℚ) : Prop :=
  ∀ (l : Law ρ ℚ) (f : α → Outcome ρ → ℚ),
    E (fun a => l.integral (f a)) = l.integral fun o => E fun a => f a o

/-- A functional that keeps sums and constant factors is an average. -/
theorem isAveraging_of_linear {E : (α → ℚ) → ℚ}
    (hadd : ∀ g h, E (fun a => g a + h a) = E g + E h)
    (hmul : ∀ c g, E (fun a => c * g a) = c * E g) : IsAveraging ρ E := by
  intro l f
  unfold Law.integral
  induction l.entries with
  | nil => simpa using hmul 0 fun _ => 0
  | cons e es ih =>
    simp only [List.map_cons, List.sum_cons, hadd, hmul]
    rw [ih]

/-- An average over the faces of dice. -/
lemma isAveraging_rollAverage (count sides : Nat) : IsAveraging ρ (rollAverage count sides) :=
  isAveraging_of_linear (rollAverage_add count sides) (rollAverage_const_mul count sides)

/-- The mean of a sampled computation. -/
lemma Run.isAveraging_mean (act : Run ρ μ α) (s : Session ρ μ) : IsAveraging ρ (act.mean s) :=
  isAveraging_of_linear (mean_add act s) (mean_const_mul act s)

namespace IsAveraging

variable {E : (α → ℚ) → ℚ} (hE : IsAveraging ρ E)

include hE

/-- The average of zero. -/
lemma zero : E (fun _ => 0) = 0 := hE .empty fun _ _ => 0

/-- An average and the expected value under a law may be exchanged. -/
theorem expect_comm (l : Law ρ ℚ) (f : α → Number ρ → ℚ) :
    E (fun a => l.expect (f a)) = l.expect fun u => E fun a => f a u := by
  unfold Law.expect
  rw [hE]
  refine Law.integral_congr fun e _ => ?_
  by_cases he : ∃ x, e.1 = single (.number x)
  · obtain ⟨x, hx⟩ := he
    simp only [hx, onNumber_number]
  · simp only [onNumber_eq_zero (not_exists.1 he)]
    exact hE.zero

end IsAveraging

/-- The expected value under a law. -/
theorem Law.isAveraging_expect (l : Law ρ ℚ) : IsAveraging ρ l.expect := by
  intro l' f
  unfold expect
  rw [← integral_comm]
  refine integral_congr fun e _ => ?_
  by_cases he : ∃ x, e.1 = single (.number x)
  · obtain ⟨x, hx⟩ := he
    simp only [hx, onNumber_number]
  · simp [onNumber_eq_zero (not_exists.1 he), integral]

/-! ## Expected values from masses -/

/-- An invariant function at a number with a mass is an expected value of indicators. -/
lemma Law.expect_indicator {l : Law ρ ℚ} {g : Number ρ → ℚ} (hg : Number.IsInvariant g)
    {y : Number ρ} (hy : l.massOf (.number y) ≠ 0) :
    (l.expect fun u => g u / l.massOf (.number u) * Number.indicator u y) = g y := by
  have hinv {u : Number ρ} (h : compare y u = .eq) :
      g u / l.massOf (.number u) = g y / l.massOf (.number y) :=
    congrArg₂ (· / ·) (hg y u h).symm (l.isInvariant_massOf y u h).symm
  have hconst : (fun u => g u / l.massOf (.number u) * Number.indicator u y) =
      fun u => g y / l.massOf (.number y) * Number.indicator y u := by
    funext u
    unfold Number.indicator
    by_cases h : compare y u = .eq
    · rw [if_pos h, if_pos (Std.OrientedCmp.eq_symm h), hinv h]
    · rw [if_neg h, if_neg fun h' => h (Std.OrientedCmp.eq_symm h'), mul_zero, mul_zero]
  rw [hconst, expect_const_mul, ← massOf_eq_expect, div_mul_cancel₀ _ hy]

end DiceCalculus
