import DiceCalculus.Binary64
import Mathlib

set_option autoImplicit false
set_option relaxedAutoImplicit false

/-!
# Rounding in binary64

The result of an operation on doubles is computed exactly and then rounded to the mantissa and the
exponent of a double. Where the exact result is a mantissa of at most 53 bits under an exponent that
is not too small, there is nothing to round, and all that happens is that zeros at the end of the
mantissa are dropped or added.

## Main definitions

* `Binary64.IsCanonical` — a mantissa and an exponent that a double can have.
* `Binary64.leading`, `Binary64.unpackedAt` — the exponent of a double by its value, and the double
  of a value, taken apart.

## Main results

* `Binary64.round_mul_two_pow` — what fits in a double is not changed by rounding.
* `Binary64.isCanonical_unpackedAt` — a value that fits in a double has a mantissa and an exponent that a
  double can have.
-/

namespace DiceCalculus

namespace Binary64

open Float.Model Float.Model.UnpackedFloat

/-! ## Mantissas and exponents of doubles -/

/-- A mantissa and an exponent are those of a double: the mantissa has 53 bits, or less than that
under the smallest exponent. -/
structure IsCanonical (m : Nat) (e : Int) : Prop where
  /-- The mantissa has no more than 53 bits. -/
  lt : m < 2 ^ 53
  /-- The exponent is not less than the smallest one. -/
  le_exponent : -1074 ≤ e
  /-- The exponent is not greater than the greatest one. -/
  exponent_le : e ≤ 971
  /-- The mantissa has its leading bit, unless the exponent is the smallest one. -/
  normal : e = -1074 ∨ 2 ^ 52 ≤ m

/-- The exponent of a double whose value is a number shifted by another exponent. -/
def leading (n : Nat) (e : Int) : Int := max (n.log2 + e - 52) (-1074)

/-- A number shifted by an exponent, under a sign: a zero, or the mantissa and the exponent of the
double with this value, if the number has at most 53 bits. -/
def unpackedAt (s : Sign) (n : Nat) (e : Int) : UnpackedFloat :=
  if h : n = 0 then .zero s
  else .finite s (n * 2 ^ (e - leading n e).toNat) (leading n e)
    (Nat.mul_pos (Nat.pos_of_ne_zero h) (Nat.two_pow_pos _))

variable {n t : Nat} {e : Int}

/-- A number that is not zero is taken apart into a mantissa and an exponent. -/
lemma unpackedAt_of_ne_zero (s : Sign) (h : n ≠ 0) (e : Int) :
    unpackedAt s n e = .finite s (n * 2 ^ (e - leading n e).toNat) (leading n e)
      (Nat.mul_pos (Nat.pos_of_ne_zero h) (Nat.two_pow_pos _)) := dif_neg h

/-- A sign stands outside a product. -/
lemma apply_natCast_mul (s : Sign) (m n : Nat) : s.apply ((m * n : Nat) : Int) = s.apply m * n := by
  rw [Int.natCast_mul]
  cases s with
  | positive => rfl
  | negative => exact (Int.neg_mul ..).symm

/-! ## Leading bits -/

/-- A number is not zero if it is one with zeros at its end. -/
lemma mul_two_pow_ne_zero (hn : n ≠ 0) (t : Nat) : n * 2 ^ t ≠ 0 :=
  Nat.mul_ne_zero hn (Nat.ne_of_gt (Nat.two_pow_pos t))

/-- With zeros at its end, a number has its leading bit further up. -/
lemma log2_mul_two_pow (hn : n ≠ 0) (t : Nat) : (n * 2 ^ t).log2 = n.log2 + t := by
  induction t with
  | zero => rw [Nat.pow_zero, Nat.mul_one, Nat.add_zero]
  | succ t ih =>
    rw [Nat.pow_succ', Nat.mul_left_comm, Nat.log2_two_mul (mul_two_pow_ne_zero hn t), ih]
    rfl

/-- The leading bit of a number below `2 ^ 53` is one of the first 53. -/
lemma log2_le_of_lt_two_pow (hlt : n < 2 ^ 53) : n.log2 ≤ 52 := by
  by_cases h : n = 0
  · subst h
    decide
  · have := (Nat.log2_lt h).2 hlt
    omega

/-- The exponent of a double is not greater than that of its value as a number of at most 53
bits. -/
lemma leading_le (hlt : n < 2 ^ 53) (he : -1074 ≤ e) : leading n e ≤ e := by
  have hlog := log2_le_of_lt_two_pow hlt
  unfold leading
  omega

/-- The mantissa of a double has its leading bit at the same place for all its values of one
magnitude. -/
lemma log2_mantissa (hn : n ≠ 0) (hlt : n < 2 ^ 53) (he : -1074 ≤ e) :
    ((n * 2 ^ (e - leading n e).toNat).log2 : Int) = n.log2 + e - leading n e := by
  have hle := leading_le hlt he
  rw [log2_mul_two_pow hn]
  omega

/-- The exponent of a double does not depend on how its value is written. -/
lemma leading_mul_two_pow (hn : n ≠ 0) (t : Nat) (e : Int) :
    leading (n * 2 ^ t) e = leading n (e + t) := by
  unfold leading
  rw [log2_mul_two_pow hn]
  omega

/-- A number of at most 53 bits has the mantissa and the exponent of a double, unless it is too
great. -/
theorem isCanonical_unpackedAt (hn : n ≠ 0) (hlt : n < 2 ^ 53) (he : -1074 ≤ e)
    (htop : n.log2 + e ≤ 1023) : IsCanonical (n * 2 ^ (e - leading n e).toNat) (leading n e) := by
  have hlog := log2_mantissa hn hlt he
  have hne := mul_two_pow_ne_zero hn (e - leading n e).toNat
  have hleading : leading n e = max (n.log2 + e - 52) (-1074) := rfl
  refine ⟨(Nat.log2_lt hne).1 (by omega), by omega, by omega, ?_⟩
  rcases Int.lt_or_le (n.log2 + e - 52) (-1074) with h | h
  · left
    omega
  · right
    exact (Nat.le_log2 hne).1 (by omega)

/-! ## Rounding -/

/-- A mantissa from which as many zeros are dropped as it ends in is not rounded. -/
lemma shiftRight_mul_two_pow (a d : Nat) :
    (⟨a * 2 ^ d, false, false⟩ : ExtendedMantissa) >>> d = ⟨a, false, false⟩ := by
  show d.repeat ExtendedMantissa.shiftRightOne ⟨a * 2 ^ d, false, false⟩ = _
  induction d generalizing a with
  | zero => rw [Nat.pow_zero, Nat.mul_one]; rfl
  | succ d ih =>
    have hshift : a * 2 ^ (d + 1) = 2 * a * 2 ^ d := by
      rw [Nat.pow_succ', Nat.mul_left_comm, Nat.mul_assoc]
    rw [hshift]
    show ExtendedMantissa.shiftRightOne (d.repeat ExtendedMantissa.shiftRightOne _) = _
    rw [ih]
    simp [ExtendedMantissa.shiftRightOne]

/-- The exponent at which a number has a mantissa of 53 bits, as long as it is not too small. -/
lemma targetExponent_eq (m : Nat) (e : Int) :
    Format.binary64.targetExponent (totalExponent m e) = leading m e := by
  have hbits : (Format.binary64.mantissaBits : Int) = 53 := by decide
  have hmin : Format.binary64.minExponent = -1074 := by decide
  unfold Format.targetExponent totalExponent leading
  rw [hbits, hmin]
  omega

/-- A mantissa is shifted, rounded, and shifted again in case that it has become too long. -/
lemma roundWithAccuracy_eq {spec : Format} {s : Sign} {m : Nat} {e e' e'' : Int} {a : Accuracy}
    {em em' : ExtendedMantissa} (hfirst : shiftToTargetExponent spec m e a = (em, e'))
    (hagain : shiftToTargetExponent spec em.roundedMantissa e' .exact = (em', e''))
    (h : em'.mantissa ≠ 0) :
    roundWithAccuracy spec s m e a = .finite s em'.mantissa e'' (Nat.pos_of_ne_zero h) := by
  simp [roundWithAccuracy, hfirst, hagain, h]

section Exact

variable (s : Sign) (hn : n ≠ 0) (hlt : n < 2 ^ 53) (he : -1074 ≤ e + t)

include hn hlt he

/-- A number of at most 53 bits with zeros at its end is shifted to the mantissa of a double, and
nothing is lost. -/
lemma shiftToTargetExponent_mul_two_pow (hle : e ≤ leading n (e + t)) :
    shiftToTargetExponent Format.binary64 (n * 2 ^ t) e .exact =
      ((⟨n * 2 ^ (e + t - leading n (e + t)).toNat, false, false⟩ : ExtendedMantissa),
        leading n (e + t)) := by
  have htop := leading_le hlt he
  have hzeros : n * 2 ^ t = n * 2 ^ (e + t - leading n (e + t)).toNat *
      2 ^ (leading n (e + t) - e).toNat := by
    rw [Nat.mul_assoc, ← Nat.pow_add]
    congr 2
    omega
  have hexponent : e + (leading n (e + t) - e).toNat = leading n (e + t) := by omega
  unfold shiftToTargetExponent shiftToExponent
  rw [targetExponent_eq, leading_mul_two_pow hn]
  show ((⟨n * 2 ^ t, false, false⟩ : ExtendedMantissa) >>> (leading n (e + t) - e).toNat, _) =
    (_ : ExtendedMantissa × Int)
  rw [hzeros, shiftRight_mul_two_pow, hexponent]

/-- A number of at most 53 bits with enough zeros at its end is not changed by rounding. -/
lemma roundWithAccuracy_mul_two_pow (hle : e ≤ leading n (e + t)) :
    roundWithAccuracy Format.binary64 s (n * 2 ^ t) e .exact = unpackedAt s n (e + t) := by
  have htop := leading_le hlt he
  have hvalue : leading n (e + t) + (e + t - leading n (e + t)).toNat = e + t := by omega
  have hagain := shiftToTargetExponent_mul_two_pow (t := (e + t - leading n (e + t)).toNat)
    (e := leading n (e + t)) hn hlt (by omega) (Int.le_of_eq (by rw [hvalue]))
  rw [hvalue] at hagain
  rw [unpackedAt_of_ne_zero s hn]
  exact roundWithAccuracy_eq (shiftToTargetExponent_mul_two_pow hn hlt he hle) hagain
    (mul_two_pow_ne_zero hn _)

/-- A number of at most 53 bits, with any number of zeros at its end, is not changed by rounding. -/
theorem round_mul_two_pow :
    UnpackedFloat.round Format.binary64 s (n * 2 ^ t) e = unpackedAt s n (e + t) := by
  have hexponent : e - (e - leading n (e + t)).toNat + (t + (e - leading n (e + t)).toNat : Nat) =
      e + t := by omega
  unfold UnpackedFloat.round decreaseExponent
  rw [targetExponent_eq, leading_mul_two_pow hn]
  dsimp only
  rw [Nat.shiftLeft_eq, Nat.mul_assoc, ← Nat.pow_add,
    roundWithAccuracy_mul_two_pow s hn hlt (by omega) (by rw [hexponent]; omega), hexponent]

/-- A number of at most 53 bits under a sign, with any number of zeros at its end, is not changed by
rounding. -/
lemma normalize_apply :
    UnpackedFloat.normalize Format.binary64 (s.apply (n * 2 ^ t : Nat)) e .positive =
      unpackedAt s n (e + t) := by
  have hpos : (0 : Int) < (n * 2 ^ t : Nat) :=
    Int.natCast_pos.2 (Nat.pos_of_ne_zero (mul_two_pow_ne_zero hn t))
  have hround := round_mul_two_pow s hn hlt he
  unfold UnpackedFloat.normalize
  cases s with
  | positive =>
    rw [Sign.apply, Std.compare_eq_gt.2 hpos]
    simpa only [Int.toNat_natCast] using hround
  | negative =>
    rw [Sign.apply, Std.compare_eq_lt.2 (by omega : -((n * 2 ^ t : Nat) : Int) < 0)]
    simpa only [Int.neg_neg, Int.toNat_natCast] using hround

end Exact

end Binary64

end DiceCalculus
