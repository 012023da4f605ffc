import Mathlib.Algebra.Order.Ring.Rat
import Mathlib.Data.Rat.Defs
import Mathlib.Order.WithBot
import DiceCalculus.Proofs.Congruence

set_option autoImplicit false
set_option relaxedAutoImplicit false

/-!
# Exact reals

The rationals with a least element are reals in which every operation is exact. They bear out what
is assumed of the arithmetic of reals.

## Main definitions

* `Scalar (WithBot ℚ)` — rationals, and the value of a maximum over nothing below them.

## Main results

* `Scalar.isCongruent_exact` — operands that compare equal give results that compare equal.
-/

namespace DiceCalculus

/-- The integer of 32 bits of a value has that value. -/
lemma Int32.ofInt?_eq_some_iff {n : Int} {i : Int32} : Int32.ofInt? n = some i ↔ i.toInt = n := by
  have hmin : Int32.minValue.toInt = -2 ^ 31 := by decide
  have hmax : Int32.maxValue.toInt = 2 ^ 31 - 1 := by decide
  unfold Int32.ofInt?
  rw [hmin, hmax]
  constructor
  · intro h
    split at h
    · next hn =>
      rw [← Option.some_inj.1 h]
      exact Int32.toInt_ofInt_of_le hn.1 (by omega)
    · cases h
  · rintro rfl
    have hlt := i.toInt_lt
    have hle := i.le_toInt
    rw [if_pos (by omega), Int32.ofInt_toInt]

/-- Rationals, and the value of a maximum over nothing below them. -/
instance : Scalar (WithBot ℚ) where
  ofInt32 i := ((i.toInt : ℚ) : WithBot ℚ)
  toInt32? x := x.recBotCoe none fun q => if q.den = 1 then Int32.ofInt? q.num else none
  cmp := compare
  add := WithBot.map₂ (· + ·)
  sub := WithBot.map₂ (· - ·)
  mul := WithBot.map₂ (· * ·)
  div := WithBot.map₂ (· / ·)
  negInfinity := ⊥
  transCmp := inferInstance
  cmp_ofInt32 i j := by
    rcases lt_trichotomy i.toInt j.toInt with h | h | h
    · rw [compare_lt_iff_lt.2 h, compare_lt_iff_lt]
      exact_mod_cast h
    · rw [compare_eq_iff_eq.2 h, compare_eq_iff_eq, h]
    · rw [compare_gt_iff_gt.2 h, compare_gt_iff_gt]
      exact_mod_cast h
  toInt32?_eq_some_iff x i := by
    rw [compare_eq_iff_eq]
    induction x with
    | bot => exact ⟨nofun, nofun⟩
    | coe q =>
      rw [WithBot.recBotCoe_coe, WithBot.coe_inj]
      constructor
      · intro h
        split at h
        · next hden =>
          rw [Int32.ofInt?_eq_some_iff.1 h, Rat.coe_int_num_of_den_eq_one hden]
        · cases h
      · rintro rfl
        rw [if_pos (Rat.den_intCast _), Int32.ofInt?_eq_some_iff, Rat.num_intCast]
  negInfinity_lt_ofInt32 i := compare_lt_iff_lt.2 (WithBot.bot_lt_coe _)

namespace Number

/-- Exact numbers compare equal if they have the same value. -/
lemma compare_exact_eq_iff (x y : Number (WithBot ℚ)) :
    compare x y = .eq ↔ x.toReal = y.toReal := by
  rw [compare_eq_cmp]
  exact compare_eq_iff_eq

/-- The value of an exact operation, whether or not the result is an integer. -/
lemma toReal_promote {exact : Int → Int → Int} {approximate : ℚ → ℚ → ℚ}
    (h : ∀ i j : Int, ((exact i j : Int) : ℚ) = approximate i j) (x y : Number (WithBot ℚ)) :
    (promote exact (WithBot.map₂ approximate) x y).toReal =
      WithBot.map₂ approximate x.toReal y.toReal := by
  unfold promote
  split
  · next i j =>
    split
    · next k hk =>
      show ((k.toInt : ℚ) : WithBot ℚ) = ((approximate i.toInt j.toInt : ℚ) : WithBot ℚ)
      rw [Int32.ofInt?_eq_some_iff.1 hk, h]
    · rfl
  · rfl

end Number

/-- In exact arithmetic, operands that compare equal give results that compare equal. -/
theorem Scalar.isCongruent_exact : Scalar.IsCongruent (WithBot ℚ) := by
  intro op
  by_cases hop : op.isComparison = true
  · exact Operator.isCongruent_of_isComparison hop
  intro x x' y y' hx hy
  have hzero := Number.isZero_congr hy
  rw [Number.compare_exact_eq_iff] at hx hy
  have hpromote {exact : Int → Int → Int} {approximate : ℚ → ℚ → ℚ}
      (h : ∀ i j : Int, ((exact i j : Int) : ℚ) = approximate i j) :
      compare (Number.promote exact (WithBot.map₂ approximate) x y)
        (Number.promote exact (WithBot.map₂ approximate) x' y') = .eq := by
    rw [Number.compare_exact_eq_iff, Number.toReal_promote h, Number.toReal_promote h, hx, hy]
  cases op with
  | add => exact .some (hpromote fun i j => Int.cast_add i j)
  | sub => exact .some (hpromote fun i j => Int.cast_sub i j)
  | mul => exact .some (hpromote fun i j => Int.cast_mul i j)
  | div =>
    simp only [Operator.value?, hzero]
    split
    · exact .none
    · refine .some ?_
      show compare (Number.div x y) (Number.div x' y') = .eq
      rw [Number.compare_exact_eq_iff, Number.div, Number.div, hx, hy]
  | _ => exact absurd rfl hop

end DiceCalculus
