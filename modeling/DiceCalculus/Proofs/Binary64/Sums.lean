import DiceCalculus.Proofs.Binary64.Order

set_option autoImplicit false
set_option relaxedAutoImplicit false

/-!
# Sums of natural numbers as doubles

The natural numbers up to `2 ^ 53` are doubles, and so are their sums as long as these do not exceed
`2 ^ 53`. The last of them has one bit more than a mantissa, but this bit is a zero.

## Main definitions

* `Binary64.ofNat` — the double of a natural number, rounded if it is too long.

## Main results

* `Binary64.value?_ofNat` — a natural number up to `2 ^ 53` is not rounded.
* `Binary64.ofNat_add_ofNat` — the sum of natural numbers is exact up to `2 ^ 53`.
-/

namespace DiceCalculus

namespace Binary64

open Float.Model Float.Model.UnpackedFloat

/-- The double of a natural number, which is rounded to a mantissa of 53 bits. -/
def ofNat (n : Nat) : Float := .ofModel (.ofNat n)

variable {n : Nat}

/-- A natural number up to `2 ^ 53` is rounded in the same way with any number of zeros at its
end. -/
lemma normalize_nat (hle : n ≤ 2 ^ 53) (t : Nat) :
    UnpackedFloat.normalize .binary64 ((n : Int) * 2 ^ t) (-t) .positive =
      .normalize .binary64 n 0 .positive := by
  rcases Nat.lt_or_eq_of_le hle with hlt | rfl
  · exact (normalize_int (i := n) hlt t).trans (normalize_int_zero (i := n) hlt).symm
  · -- one of the zeros at the end of `2 ^ 53` goes with the others
    have hvalue (k : Nat) : UnpackedFloat.normalize .binary64 (((2 ^ 53 : Nat) : Int) * 2 ^ k) (-k)
        .positive = unpackedAt .positive (2 ^ 52) 1 := by
      have hzeros : ((2 ^ 53 : Nat) : Int) * 2 ^ k =
          Sign.positive.apply (2 ^ 52 * 2 ^ (k + 1) : Nat) := by
        rw [Sign.apply]
        push_cast
        ring
      have hexponent : -(k : Int) + (k + 1 : Nat) = 1 := by omega
      rw [hzeros, normalize_apply .positive (by decide) (by decide) (by omega), hexponent]
    have hplain := hvalue 0
    rw [Int.pow_zero, Int.mul_one] at hplain
    exact (hvalue t).trans hplain.symm

/-- The double of a natural number up to `2 ^ 53` has its value. -/
theorem value?_ofNat (hle : n ≤ 2 ^ 53) : value? (ofNat n).toBits = some (ofRat n) := by
  show valueOf? (Float.Model.pack (.normalize .binary64 n 0 .positive)).unpack = _
  rcases Nat.lt_or_eq_of_le hle with hlt | rfl
  · have hlog := log2_le_of_lt_two_pow hlt
    have hvalue := valueOf?_pack_normalize .positive (t := 0) (e := 0) hlt (by decide) (by omega)
    rw [Nat.pow_zero, Nat.mul_one] at hvalue
    simpa [Sign.apply] using hvalue
  · have hvalue := valueOf?_pack_normalize .positive (n := 2 ^ 52) (t := 1) (e := 0) (by decide)
      (by decide) (by decide)
    refine hvalue.trans ?_
    norm_num [Sign.apply]

/-- A natural number below `2 ^ 53` is taken apart as an integer. -/
lemma unpack_ofNat (hlt : n < 2 ^ 53) : (ofNat n).toModel.unpack = unpackedInt n := by
  show (Float.Model.pack (.normalize .binary64 n 0 .positive)).unpack = _
  rw [normalize_int_zero (i := n) hlt]
  exact unpack_pack_unpackedNat _ hlt

/-- The double of an integer of 32 bits that is not negative. -/
lemma ofInt32_eq_ofNat {i : Int32} (h : i.toInt = n) : ofInt32 i = ofNat n := by
  have hlt := natAbs_toInt_lt_two_pow i
  rw [pack_unpackedInt, ← normalize_int_zero hlt, h]
  rfl

/-- The sum of natural numbers is exact as long as it does not exceed `2 ^ 53`. -/
theorem ofNat_add_ofNat {m n : Nat} (hle : m + n ≤ 2 ^ 53) (hm : m < 2 ^ 53) (hn : n < 2 ^ 53) :
    ofNat m + ofNat n = ofNat (m + n) := by
  show Float.ofModel (.pack (.add .binary64 (ofNat m).toModel.unpack (ofNat n).toModel.unpack)) =
    .ofModel (.pack (.normalize .binary64 (m + n : Nat) 0 .positive))
  rw [unpack_ofNat hm, unpack_ofNat hn]
  rcases Nat.lt_or_eq_of_le hle with hlt | heq
  · rw [add_int (i := m) (j := n) hm hn hlt, ← Int.natCast_add,
      normalize_int_zero (i := (m + n : Nat)) hlt]
  · obtain ⟨t, ht⟩ := exists_add_eq_normalize (i := m) (j := n) hm hn (by omega) (by omega)
    rw [ht, ← Int.natCast_add, normalize_nat hle]

end Binary64

end DiceCalculus
