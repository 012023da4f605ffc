import DiceCalculus.Proofs.Binary64.Rounding

set_option autoImplicit false
set_option relaxedAutoImplicit false

/-!
# Integers in binary64

The arithmetic of doubles takes its operands apart into sign, mantissa and exponent, computes with
these exactly and rounds the result. An integer below `2 ^ 53` has a mantissa of 53 bits that ends in
zeros, and to round it does no more than to drop zeros at the end.

## Main definitions

* `Binary64.unpackedNat`, `Binary64.unpackedInt` — a natural number under a sign, and an integer, taken
  apart.
* `Binary64.Agree` — the same up to the sign of a zero.

## Main results

* `Binary64.roundWithAccuracy_nat`, `Binary64.normalize_int` — an integer is rounded to itself.
* `Binary64.add_int`, `Binary64.sub_int`, `Binary64.agree_mul_int` — the arithmetic of integers is
  exact, a product up to the sign of a zero.
-/

namespace DiceCalculus

namespace Binary64

open Float.Model Float.Model.UnpackedFloat

/-! ## Integers taken apart -/

/-- A natural number under a sign: a zero, or a mantissa of 53 bits if the number has no more. -/
def unpackedNat (s : Sign) (n : Nat) : UnpackedFloat :=
  if h : n = 0 then .zero s
  else .finite s (n * 2 ^ (52 - n.log2)) (n.log2 - 52)
    (Nat.mul_pos (Nat.pos_of_ne_zero h) (Nat.two_pow_pos _))

/-- The sign of an integer, which for zero is positive. -/
def signOf (i : Int) : Sign := if 0 ≤ i then .positive else .negative

/-- An integer: its magnitude under its sign. -/
def unpackedInt (i : Int) : UnpackedFloat := unpackedNat (signOf i) i.natAbs

/-- A number that is not zero is taken apart into a mantissa and an exponent. -/
lemma unpackedNat_of_ne_zero (s : Sign) {n : Nat} (h : n ≠ 0) :
    unpackedNat s n = .finite s (n * 2 ^ (52 - n.log2)) (n.log2 - 52)
      (Nat.mul_pos (Nat.pos_of_ne_zero h) (Nat.two_pow_pos _)) := dif_neg h

/-- An integer is its magnitude under its sign. -/
lemma apply_signOf (i : Int) : (signOf i).apply i.natAbs = i := by
  unfold signOf
  split
  · exact Int.natAbs_of_nonneg ‹_›
  · show -(i.natAbs : Int) = i
    omega

/-! ## Rounding -/

variable {n t : Nat}

/-- A natural number of at most 53 bits is taken apart as one that is not shifted. -/
lemma unpackedAt_zero (s : Sign) (hlt : n < 2 ^ 53) : unpackedAt s n 0 = unpackedNat s n := by
  by_cases hn : n = 0
  · subst hn
    rfl
  have hlog := log2_le_of_lt_two_pow hlt
  have hleading : leading n 0 = n.log2 - 52 := by
    unfold leading
    omega
  have hshift : ((0 : Int) - (n.log2 - 52)).toNat = 52 - n.log2 := by omega
  rw [unpackedAt_of_ne_zero s hn, unpackedNat_of_ne_zero s hn]
  simp only [hleading, hshift]

/-- A number below `2 ^ 53` with zeros at its end is rounded to itself. -/
theorem roundWithAccuracy_nat (s : Sign) (hn : n ≠ 0) (hlt : n < 2 ^ 53) (ht : 52 ≤ n.log2 + t) :
    roundWithAccuracy Format.binary64 s (n * 2 ^ t) (-t) .exact = unpackedNat s n := by
  have hvalue : -(t : Int) + t = 0 := by omega
  have hround := roundWithAccuracy_mul_two_pow s hn hlt (t := t) (e := -(t : Int)) (by omega)
    (by rw [hvalue]; unfold leading; omega)
  rw [hround, hvalue, unpackedAt_zero s hlt]

/-- An integer below `2 ^ 53`, with any number of zeros at its end, is rounded to itself. -/
theorem normalize_int {i : Int} (hlt : i.natAbs < 2 ^ 53) (t : Nat) :
    UnpackedFloat.normalize Format.binary64 (i * 2 ^ t) (-t) .positive = unpackedInt i := by
  by_cases hi : i = 0
  · subst hi
    rw [Int.zero_mul]
    rfl
  have hvalue : -(t : Int) + t = 0 := by omega
  have hmantissa : i * 2 ^ t = (signOf i).apply (i.natAbs * 2 ^ t : Nat) := by
    rw [apply_natCast_mul, apply_signOf]
    push_cast
    rfl
  rw [hmantissa, normalize_apply _ (Int.natAbs_ne_zero.2 hi) hlt (by omega), hvalue,
    unpackedAt_zero _ hlt]
  rfl

/-- An integer below `2 ^ 53` is rounded to itself. -/
lemma normalize_int_zero {i : Int} (hlt : i.natAbs < 2 ^ 53) :
    UnpackedFloat.normalize Format.binary64 i 0 .positive = unpackedInt i := by
  have hplain := normalize_int hlt 0
  rw [Int.pow_zero, Int.mul_one] at hplain
  exact hplain

/-! ## Arithmetic -/

section Arithmetic

variable {i j : Int}

/-- An integer that is not zero is taken apart into a mantissa and an exponent. -/
lemma unpackedInt_of_ne_zero (h : i ≠ 0) :
    unpackedInt i = .finite (signOf i) (i.natAbs * 2 ^ (52 - i.natAbs.log2)) (i.natAbs.log2 - 52)
      (Nat.mul_pos (Int.natAbs_pos.2 h) (Nat.two_pow_pos _)) :=
  unpackedNat_of_ne_zero (signOf i) (Int.natAbs_ne_zero.2 h)

/-- Brought to a smaller exponent, the mantissa of an integer has zeros at its end. -/
lemma apply_decreaseExponent (hlt : i.natAbs < 2 ^ 53) {t : Nat}
    (ht : -(t : Int) ≤ i.natAbs.log2 - 52) :
    (signOf i).apply (decreaseExponent (i.natAbs * 2 ^ (52 - i.natAbs.log2)) (i.natAbs.log2 - 52)
      (-t)).1 = i * 2 ^ t := by
  have hlog := log2_le_of_lt_two_pow hlt
  have hshift : ((i.natAbs.log2 : Int) - 52 - -t).toNat = t - (52 - i.natAbs.log2) := by omega
  have hzeros : 52 - i.natAbs.log2 + (t - (52 - i.natAbs.log2)) = t := by omega
  unfold decreaseExponent
  simp only [hshift]
  rw [Nat.shiftLeft_eq, Nat.mul_assoc, ← Nat.pow_add, hzeros, apply_natCast_mul, apply_signOf]
  push_cast
  rfl

/-- The smaller of the exponents of two integers, turned round. -/
lemma exists_min_exponent (hi : i.natAbs < 2 ^ 53) :
    ∃ t : Nat, min ((i.natAbs.log2 : Int) - 52) (j.natAbs.log2 - 52) = -(t : Int) := by
  have hlog := log2_le_of_lt_two_pow hi
  exact ⟨(-min ((i.natAbs.log2 : Int) - 52) (j.natAbs.log2 - 52)).toNat, by omega⟩

/-- The sum of integers is exact before it is rounded. -/
lemma exists_add_eq_normalize (hi : i.natAbs < 2 ^ 53) (hj : j.natAbs < 2 ^ 53) (hi0 : i ≠ 0)
    (hj0 : j ≠ 0) : ∃ t : Nat, UnpackedFloat.add Format.binary64 (unpackedInt i) (unpackedInt j) =
      UnpackedFloat.normalize Format.binary64 ((i + j) * 2 ^ t) (-t) .positive := by
  obtain ⟨t, ht⟩ := exists_min_exponent (j := j) hi
  refine ⟨t, ?_⟩
  rw [unpackedInt_of_ne_zero hi0, unpackedInt_of_ne_zero hj0]
  show UnpackedFloat.normalize Format.binary64 ((signOf i).apply (decreaseExponent _ _ (min _ _)).1 +
    (signOf j).apply (decreaseExponent _ _ (min _ _)).1) (min _ _) .positive = _
  rw [ht, apply_decreaseExponent hi (by omega), apply_decreaseExponent hj (by omega), ← Int.add_mul]

/-- The sum of integers is exact as long as it is below `2 ^ 53`. -/
theorem add_int (hi : i.natAbs < 2 ^ 53) (hj : j.natAbs < 2 ^ 53) (hsum : (i + j).natAbs < 2 ^ 53) :
    UnpackedFloat.add Format.binary64 (unpackedInt i) (unpackedInt j) = unpackedInt (i + j) := by
  by_cases hi0 : i = 0
  · subst hi0
    rw [Int.zero_add]
    by_cases hj0 : j = 0
    · subst hj0
      rfl
    · rw [unpackedInt_of_ne_zero hj0]
      rfl
  by_cases hj0 : j = 0
  · subst hj0
    rw [Int.add_zero, unpackedInt_of_ne_zero hi0]
    rfl
  obtain ⟨t, ht⟩ := exists_add_eq_normalize hi hj hi0 hj0
  rw [ht]
  exact normalize_int hsum t

/-- The difference of integers is exact as long as it is below `2 ^ 53`. -/
theorem sub_int (hi : i.natAbs < 2 ^ 53) (hj : j.natAbs < 2 ^ 53) (hdiff : (i - j).natAbs < 2 ^ 53) :
    UnpackedFloat.sub Format.binary64 (unpackedInt i) (unpackedInt j) = unpackedInt (i - j) := by
  by_cases hj0 : j = 0
  · subst hj0
    rw [Int.sub_zero]
    by_cases hi0 : i = 0
    · subst hi0
      rfl
    · rw [unpackedInt_of_ne_zero hi0]
      rfl
  by_cases hi0 : i = 0
  · subst hi0
    have hsign : -signOf j = signOf (-j) := by
      unfold signOf
      rcases Int.lt_or_gt_of_ne hj0 with h | h
      · rw [if_neg (by omega), if_pos (by omega)]
        rfl
      · rw [if_pos (by omega), if_neg (by omega)]
        rfl
    rw [Int.zero_sub, unpackedInt_of_ne_zero hj0, unpackedInt_of_ne_zero (Int.neg_ne_zero.2 hj0)]
    show UnpackedFloat.finite (-signOf j) _ _ _ = _
    simp only [hsign, Int.natAbs_neg]
  obtain ⟨t, ht⟩ := exists_min_exponent (j := j) hi
  rw [unpackedInt_of_ne_zero hi0, unpackedInt_of_ne_zero hj0]
  show UnpackedFloat.normalize Format.binary64 ((signOf i).apply (decreaseExponent _ _ (min _ _)).1 -
    (signOf j).apply (decreaseExponent _ _ (min _ _)).1) (min _ _) .positive = _
  rw [ht, apply_decreaseExponent hi (by omega), apply_decreaseExponent hj (by omega), ← Int.sub_mul]
  exact normalize_int hdiff t

/-- The product of natural numbers under signs is exact as long as it is below `2 ^ 53`.

**Proof sketch.** A natural number is unpacked to a mantissa that is shifted up to 53 bits. The
product of two such mantissas is the product of the numbers under one shift, and its leading bit is
at least the sum of theirs, so that the rounding shifts back zeros only. -/
lemma mul_nat (s s' : Sign) {n n' : Nat} (hn : n < 2 ^ 53) (hn' : n' < 2 ^ 53)
    (hprod : n * n' < 2 ^ 53) :
    UnpackedFloat.mul Format.binary64 (unpackedNat s n) (unpackedNat s' n') =
      unpackedNat (s * s') (n * n') := by
  by_cases hn0 : n = 0
  · subst hn0
    rw [Nat.zero_mul]
    by_cases hn0' : n' = 0
    · subst hn0'
      rfl
    · rw [unpackedNat_of_ne_zero s' hn0']
      rfl
  by_cases hn0' : n' = 0
  · subst hn0'
    rw [Nat.mul_zero, unpackedNat_of_ne_zero s hn0]
    rfl
  have hlog := log2_le_of_lt_two_pow hn
  have hlog' := log2_le_of_lt_two_pow hn'
  have hne : n * n' ≠ 0 := Nat.mul_ne_zero hn0 hn0'
  have hleading : n.log2 + n'.log2 ≤ (n * n').log2 := by
    rw [Nat.le_log2 hne, Nat.pow_add]
    exact Nat.mul_le_mul (Nat.log2_self_le hn0) (Nat.log2_self_le hn0')
  have hmantissa : n * 2 ^ (52 - n.log2) * (n' * 2 ^ (52 - n'.log2)) =
      n * n' * 2 ^ (52 - n.log2 + (52 - n'.log2)) := by
    rw [Nat.pow_add, Nat.mul_mul_mul_comm]
  have hexponent : (n.log2 : Int) - 52 + (n'.log2 - 52) =
      -((52 - n.log2 + (52 - n'.log2) : Nat) : Int) := by omega
  rw [unpackedNat_of_ne_zero s hn0, unpackedNat_of_ne_zero s' hn0']
  show roundWithAccuracy Format.binary64 (s * s') (_ * _) (_ + _) .exact = _
  rw [hmantissa, hexponent]
  exact roundWithAccuracy_nat (s * s') hne hprod (by omega)

/-- The same up to the sign of a zero. -/
def Agree (u v : UnpackedFloat) : Prop := u = v ∨ ∃ s s', u = .zero s ∧ v = .zero s'

/-- Under either sign, a natural number is an integer, up to the sign of a zero. -/
lemma agree_unpackedNat (s : Sign) {n : Nat} (h : s.apply n = i) :
    Agree (unpackedNat s n) (unpackedInt i) := by
  subst h
  by_cases hn : n = 0
  · subst hn
    exact .inr ⟨s, .positive, rfl, by cases s <;> rfl⟩
  · left
    unfold unpackedInt signOf
    cases s with
    | positive => rw [Sign.apply, if_pos (Int.natCast_nonneg n), Int.natAbs_natCast]
    | negative => rw [Sign.apply, if_neg (by omega), Int.natAbs_neg, Int.natAbs_natCast]

/-- The product of integers is exact as long as it is below `2 ^ 53`, up to the sign of a zero. -/
theorem agree_mul_int (hi : i.natAbs < 2 ^ 53) (hj : j.natAbs < 2 ^ 53)
    (hprod : (i * j).natAbs < 2 ^ 53) :
    Agree (UnpackedFloat.mul Format.binary64 (unpackedInt i) (unpackedInt j))
      (unpackedInt (i * j)) := by
  rw [Int.natAbs_mul] at hprod
  have hsigns (s s' : Sign) (n n' : Nat) :
      (s * s').apply ((n * n' : Nat) : Int) = s.apply n * s'.apply n' := by
    rw [Int.natCast_mul]
    cases s <;> cases s'
    · exact (Int.neg_mul_neg ..).symm
    · exact (Int.neg_mul ..).symm
    · exact (Int.mul_neg ..).symm
    · rfl
  rw [unpackedInt, unpackedInt, mul_nat _ _ hi hj hprod]
  refine agree_unpackedNat _ ?_
  rw [hsigns, apply_signOf, apply_signOf]

end Arithmetic

end Binary64

end DiceCalculus
