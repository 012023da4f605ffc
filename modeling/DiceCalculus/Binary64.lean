import DiceCalculus.Scalar

set_option autoImplicit false
set_option relaxedAutoImplicit false

/-!
# Doubles as scalars

The reals of a running program are doubles, the format *binary64*: a sign bit, eleven bits of
exponent and fifty-two bits of fraction. What has to be exact about them, their order and their
passage from and to the integers, is read off the bit pattern in integer arithmetic.

## Main definitions

* `Binary64.orderKey` — a word whose order is the order of the doubles. The negative numbers are
  turned round, and both zeros get the same word.
* `Binary64.magnitude` — the pattern of a natural number below `2 ^ 32`, without its sign.
* `Binary64.ofInt32`, `Binary64.toInt32?` — the passage from and to the integers of 32 bits.

## Main results

* `Binary64.magnitude_lt_magnitude` — patterns of natural numbers keep their order.
* `Binary64.cmp_ofInt32` — integers keep their order as doubles.
* `Binary64.toInt32?_eq_some_iff` — a double passes to the integer that it equals.

## Implementation notes

A double has one pattern for *not a number*, which lies above the pattern of infinity, so that
it is the greatest double. An order of all patterns has two places for *not a number*, by its sign:
above infinity, and with a sign below the negative infinity. Which sign a *not a number* gets when it
is computed is left to the platform, and here it gets none. No pattern of an integer has the exponent of an infinity, which is all
that is needed to make the pattern a double directly.
-/

namespace DiceCalculus

namespace Binary64

/-! ## The order -/

/-- The word that orders the doubles: patterns without sign lie above `2 ^ 63` in their own
order, patterns with sign below it in the opposite order, and both zeros on it. -/
def orderKey (x : Float) : UInt64 :=
  let bits := x.toBits
  if bits < 0x8000000000000000 then bits + 0x8000000000000000 else 0 - bits

/-- The total order of the doubles. The zeros are equal, and *not a number* is the greatest. -/
def cmp : Float → Float → Ordering :=
  compareOn orderKey

/-- The order of the doubles is total and transitive, being the order of their keys. -/
theorem transCmp_cmp : Std.TransCmp cmp :=
  inferInstanceAs (Std.TransCmp (compareOn orderKey))

/-! ## Natural numbers as patterns -/

/-- The pattern of a natural number below `2 ^ 32`: the exponent is that of its leading bit,
whose place in the fraction is hidden, so that adding the shifted number to the exponent below
its own sets both fields. -/
def magnitude (n : Nat) : Nat :=
  if n = 0 then 0 else (n.log2 + 1022) <<< 52 + n <<< (52 - n.log2)

/-- A number shifted so that its leading bit is the hidden one lies in the range of the
fractions with that bit. -/
theorem shifted_bounds {n : Nat} (hn : n ≠ 0) (hlog : n.log2 ≤ 52) :
    1 <<< 52 ≤ n <<< (52 - n.log2) ∧ n <<< (52 - n.log2) < 1 <<< 53 := by
  have hlow := Nat.log2_self_le hn
  have hhigh : n < 2 ^ (n.log2 + 1) := Nat.lt_log2_self
  rw [Nat.shiftLeft_eq n, Nat.one_shiftLeft, Nat.one_shiftLeft]
  constructor
  · calc 2 ^ 52 = 2 ^ n.log2 * 2 ^ (52 - n.log2) := by
          rw [← Nat.pow_add]; congr 1; omega
      _ ≤ n * 2 ^ (52 - n.log2) := Nat.mul_le_mul_right _ hlow
  · calc n * 2 ^ (52 - n.log2) < 2 ^ (n.log2 + 1) * 2 ^ (52 - n.log2) :=
          Nat.mul_lt_mul_of_pos_right hhigh (Nat.two_pow_pos _)
      _ = 2 ^ 53 := by rw [← Nat.pow_add]; congr 1; omega

/-- The leading bit of a number below `2 ^ 32` is one of the first thirty-two. -/
theorem log2_le_of_lt {n : Nat} (hn : n < UInt32.size) : n.log2 ≤ 31 := by
  by_cases h : n = 0
  · subst h; decide
  · have := (Nat.log2_lt (k := 32) h).2 hn
    omega

/-- The pattern of a number other than zero lies between those of its power of two and the
next. -/
theorem magnitude_bounds {n : Nat} (hn : n ≠ 0) (hlt : n < UInt32.size) :
    (n.log2 + 1023) <<< 52 ≤ magnitude n ∧ magnitude n < (n.log2 + 1024) <<< 52 := by
  have hlog := log2_le_of_lt hlt
  have hb := shifted_bounds hn (Nat.le_trans hlog (by decide))
  have hmag : magnitude n = (n.log2 + 1022) <<< 52 + n <<< (52 - n.log2) := if_neg hn
  rw [hmag]
  generalize n <<< (52 - n.log2) = shifted at hb ⊢
  omega

/-- Patterns of natural numbers keep their order. -/
theorem magnitude_lt_magnitude {n m : Nat} (hm : m < UInt32.size) (h : n < m) :
    magnitude n < magnitude m := by
  have hm0 : m ≠ 0 := by omega
  have hmb := magnitude_bounds hm0 hm
  by_cases hn0 : n = 0
  · subst hn0
    have hz : magnitude 0 = 0 := rfl
    omega
  · have hnb := magnitude_bounds hn0 (by omega : n < UInt32.size)
    have hle : n.log2 ≤ m.log2 := (Nat.le_log2 hm0).2 (by
      have := Nat.log2_self_le hn0
      omega)
    rcases Nat.lt_or_eq_of_le hle with hlt | heq
    · omega
    · simp only [magnitude, if_neg hn0, if_neg hm0, heq, Nat.shiftLeft_eq]
      exact Nat.add_lt_add_left (Nat.mul_lt_mul_of_pos_right h (Nat.two_pow_pos _)) _

/-- The pattern of a number below `2 ^ 32` is far below that of infinity. -/
theorem magnitude_lt {n : Nat} (hn : n < UInt32.size) : magnitude n < 1056 <<< 52 := by
  by_cases h0 : n = 0
  · subst h0; decide
  · have hlog := log2_le_of_lt hn
    have hb := magnitude_bounds h0 hn
    omega

/-! ## Integers as doubles -/

/-- The pattern of an integer of 32 bits: its magnitude under its sign. -/
def bitsOfInt32 (i : Int32) : Nat :=
  if 0 ≤ i.toInt then magnitude i.toInt.natAbs else 1 <<< 63 + magnitude i.toInt.natAbs

/-- An integer of 32 bits has a magnitude below `2 ^ 32`. -/
theorem natAbs_toInt_lt (i : Int32) : i.toInt.natAbs < UInt32.size := by
  have h1 := i.le_toInt
  have h2 := i.toInt_lt
  simp only [UInt32.size]
  omega

/-- A pattern whose exponent is not that of an infinity is a double as it stands. -/
theorem valid_of_exponent_lt {b : Nat} (hb : b < UInt64.size) (he : b >>> 52 % 2048 < 2047) :
    Float.Model.Format.binary64.Valid (UInt64.ofNat b).toBitVec := by
  refine ⟨fun hexp _ => ?_⟩
  exfalso
  have h := congrArg BitVec.toNat hexp
  simp only [Float.Model.UnpackedFloat.unpackExponent, BitVec.toNat_cast, BitVec.extractLsb_toNat,
    UInt64.toNat_toBitVec, UInt64.toNat_ofNat'] at h
  rw [Nat.mod_eq_of_lt hb] at h
  have h' : b >>> 52 % 2048 = 2047 := h
  omega

/-- The pattern of an integer fits a word. -/
theorem bitsOfInt32_lt (i : Int32) : bitsOfInt32 i < UInt64.size := by
  have h := magnitude_lt (natAbs_toInt_lt i)
  unfold bitsOfInt32 UInt64.size
  split <;> omega

/-- The pattern of an integer is that of a finite double. -/
theorem bitsOfInt32_exponent_lt (i : Int32) : bitsOfInt32 i >>> 52 % 2048 < 2047 := by
  have h := magnitude_lt (natAbs_toInt_lt i)
  unfold bitsOfInt32
  split <;> omega

/-- The double of the same value as an integer of 32 bits. -/
def ofInt32 (i : Int32) : Float :=
  .ofModel ⟨UInt64.ofNat (bitsOfInt32 i),
    valid_of_exponent_lt (bitsOfInt32_lt i) (bitsOfInt32_exponent_lt i)⟩

/-- The pattern of an integer as a double. -/
theorem toBits_ofInt32 (i : Int32) : (ofInt32 i).toBits.toNat = bitsOfInt32 i := by
  show (UInt64.ofNat (bitsOfInt32 i)).toNat = bitsOfInt32 i
  rw [UInt64.toNat_ofNat']
  exact Nat.mod_eq_of_lt (bitsOfInt32_lt i)

/-- The key of an integer lies as far above or below the key of zero as its magnitude says. -/
theorem orderKey_ofInt32 (i : Int32) :
    (orderKey (ofInt32 i)).toNat =
      if 0 ≤ i.toInt then 1 <<< 63 + magnitude i.toInt.natAbs
      else 1 <<< 63 - magnitude i.toInt.natAbs := by
  have hbits := toBits_ofInt32 i
  have hmag := magnitude_lt (natAbs_toInt_lt i)
  have hiff : (ofInt32 i).toBits < 0x8000000000000000 ↔ bitsOfInt32 i < 1 <<< 63 := by
    rw [UInt64.lt_iff_toNat_lt, hbits]; rfl
  unfold orderKey
  by_cases h : 0 ≤ i.toInt
  · have hb : bitsOfInt32 i = magnitude i.toInt.natAbs := by unfold bitsOfInt32; rw [if_pos h]
    rw [if_pos h, if_pos (hiff.2 (by omega)), UInt64.toNat_add, hbits, hb]
    rw [show (0x8000000000000000 : UInt64).toNat = 1 <<< 63 from rfl, Nat.add_comm]
    exact Nat.mod_eq_of_lt (by omega)
  · have hb : bitsOfInt32 i = 1 <<< 63 + magnitude i.toInt.natAbs := by
      unfold bitsOfInt32; rw [if_neg h]
    rw [if_neg h, if_neg (fun hc => by have := hiff.1 hc; omega), UInt64.toNat_sub, hbits, hb]
    rw [show (0 : UInt64).toNat = 0 from rfl]
    omega

/-- A smaller integer has a smaller key.

**Proof sketch.** Between two integers of one sign the keys are as far apart as the magnitudes,
which keep their order; a negative integer has its key below `2 ^ 63` and every other on or above
it. -/
theorem orderKey_lt_orderKey {i j : Int32} (h : i.toInt < j.toInt) :
    (orderKey (ofInt32 i)).toNat < (orderKey (ofInt32 j)).toNat := by
  have hi := natAbs_toInt_lt i
  have hj := natAbs_toInt_lt j
  have hmi := magnitude_lt hi
  rw [orderKey_ofInt32, orderKey_ofInt32]
  by_cases hi0 : 0 ≤ i.toInt
  · rw [if_pos hi0, if_pos (by omega)]
    have := magnitude_lt_magnitude hj (by omega : i.toInt.natAbs < j.toInt.natAbs)
    omega
  · have hmag := magnitude_lt_magnitude hi (by omega : 0 < i.toInt.natAbs)
    rw [if_neg hi0]
    by_cases hj0 : 0 ≤ j.toInt
    · rw [if_pos hj0]
      omega
    · rw [if_neg hj0]
      have := magnitude_lt_magnitude hi (by omega : j.toInt.natAbs < i.toInt.natAbs)
      omega

/-- Integers keep their order as doubles. -/
theorem cmp_ofInt32 (i j : Int32) : cmp (ofInt32 i) (ofInt32 j) = compare i.toInt j.toInt := by
  show compare (orderKey (ofInt32 i)) (orderKey (ofInt32 j)) = _
  rcases Int.lt_trichotomy i.toInt j.toInt with h | h | h
  · rw [Std.compare_eq_lt.2 h, Std.compare_eq_lt.2 (UInt64.lt_iff_toNat_lt.2 (orderKey_lt_orderKey h))]
  · have hij : i = j := Int32.toInt_inj.1 h
    rw [hij, Std.compare_self, Std.compare_self]
  · rw [Std.compare_eq_gt.2 h, Std.compare_eq_gt.2 (UInt64.lt_iff_toNat_lt.2 (orderKey_lt_orderKey h))]

/-! ## Doubles as integers -/

/-- The whole part of the magnitude of a double below `2 ^ 32`; of no use for a greater one. -/
def wholePart (x : Float) : Nat :=
  let bits := x.toBits.toNat % 1 <<< 63
  let exponent := bits >>> 52
  if exponent < 1023 then 0 else (1 <<< 52 + bits % 1 <<< 52) >>> (1075 - exponent)

/-- The whole part of a double under its sign. -/
def candidate (x : Float) : Int32 :=
  .ofInt (if x.toBits < 0x8000000000000000 then (wholePart x : Int) else -(wholePart x : Int))

/-- The integer of 32 bits that a double equals, if there is one. Only the whole part under the
sign of the double can be that integer, so the double is compared with it. -/
def toInt32? (x : Float) : Option Int32 :=
  if cmp (ofInt32 (candidate x)) x = .eq then some (candidate x) else none

/-- Two doubles are equal exactly if they have the same key. -/
theorem cmp_eq_iff (x y : Float) : cmp x y = .eq ↔ (orderKey x).toNat = (orderKey y).toNat := by
  show compare (orderKey x) (orderKey y) = .eq ↔ _
  rw [Std.LawfulEqOrd.compare_eq_iff_eq, UInt64.toNat_inj]

/-- The key of a double, in natural numbers. -/
theorem toNat_orderKey (x : Float) :
    (orderKey x).toNat =
      if x.toBits.toNat < 1 <<< 63 then 1 <<< 63 + x.toBits.toNat
      else 1 <<< 64 - x.toBits.toNat := by
  have hbits : x.toBits.toNat < 1 <<< 64 := UInt64.toNat_lt_size _
  have hhalf : (0x8000000000000000 : UInt64).toNat = 1 <<< 63 := rfl
  by_cases h : x.toBits.toNat < 1 <<< 63
  · have hlt : x.toBits < 0x8000000000000000 := by rwa [UInt64.lt_iff_toNat_lt, hhalf]
    rw [orderKey, if_pos h, if_pos hlt, UInt64.toNat_add, hhalf]
    omega
  · have hlt : ¬ x.toBits < 0x8000000000000000 := by rwa [UInt64.lt_iff_toNat_lt, hhalf]
    rw [orderKey, if_neg h, if_neg hlt, UInt64.toNat_sub, show (0 : UInt64).toNat = 0 from rfl]
    omega

/-- A double that equals an integer has the magnitude of the integer as its pattern, under a
sign that is that of the integer unless both are zero. -/
theorem toBits_of_cmp_ofInt32 {i : Int32} {x : Float} (h : cmp (ofInt32 i) x = .eq) :
    (x.toBits.toNat = magnitude i.toInt.natAbs ∧ 0 ≤ i.toInt) ∨
      (x.toBits.toNat = 1 <<< 63 + magnitude i.toInt.natAbs ∧ i.toInt ≤ 0) := by
  rw [cmp_eq_iff, orderKey_ofInt32, toNat_orderKey] at h
  have hmag := magnitude_lt (natAbs_toInt_lt i)
  have hbits : x.toBits.toNat < 1 <<< 64 := UInt64.toNat_lt_size _
  by_cases hzero : i.toInt = 0
  · have hz : magnitude i.toInt.natAbs = 0 := by rw [hzero]; rfl
    rw [hz] at h ⊢
    split at h <;> split at h <;> omega
  · have hpos : magnitude 0 < magnitude i.toInt.natAbs :=
      magnitude_lt_magnitude (natAbs_toInt_lt i) (by omega)
    have hz : magnitude 0 = 0 := rfl
    split at h <;> split at h <;> omega

/-- Among the magnitudes, the whole part undoes the pattern of a natural number. -/
theorem wholePart_of_magnitude {n : Nat} (hn : n < UInt32.size) {x : Float}
    (hx : x.toBits.toNat % 1 <<< 63 = magnitude n) : wholePart x = n := by
  unfold wholePart
  rw [hx]
  by_cases h0 : n = 0
  · subst h0; rfl
  · have hlog := log2_le_of_lt hn
    have hb := magnitude_bounds h0 hn
    have hs := shifted_bounds h0 (Nat.le_trans hlog (by decide))
    have hmag : magnitude n = (n.log2 + 1022) <<< 52 + n <<< (52 - n.log2) := if_neg h0
    have hexp : magnitude n >>> 52 = n.log2 + 1023 := by omega
    have hfrac : 1 <<< 52 + magnitude n % 1 <<< 52 = n <<< (52 - n.log2) := by
      rw [show 1 <<< 52 = 4503599627370496 from rfl] at hs ⊢
      generalize n <<< (52 - n.log2) = shifted at hmag hs ⊢
      omega
    simp only [hexp, hfrac]
    rw [if_neg (by omega), show 1075 - (n.log2 + 1023) = 52 - n.log2 by omega,
      Nat.shiftLeft_shiftRight]

/-- The candidate for a double that equals an integer is that integer. -/
theorem candidate_of_cmp_ofInt32 {i : Int32} {x : Float} (h : cmp (ofInt32 i) x = .eq) :
    candidate x = i := by
  have hmag := magnitude_lt (natAbs_toInt_lt i)
  have hhalf : (0x8000000000000000 : UInt64).toNat = 1 <<< 63 := rfl
  have hwhole : wholePart x = i.toInt.natAbs := by
    refine wholePart_of_magnitude (natAbs_toInt_lt i) ?_
    rw [show 1 <<< 63 = 9223372036854775808 from rfl]
    rcases toBits_of_cmp_ofInt32 h with ⟨hx, -⟩ | ⟨hx, -⟩ <;> omega
  unfold candidate
  rw [hwhole]
  rcases toBits_of_cmp_ofInt32 h with ⟨hx, hi⟩ | ⟨hx, hi⟩
  · rw [if_pos (by rw [UInt64.lt_iff_toNat_lt, hhalf]; omega),
      show (i.toInt.natAbs : Int) = i.toInt by omega, Int32.ofInt_toInt]
  · rw [if_neg (by rw [UInt64.lt_iff_toNat_lt, hhalf]; omega),
      show -(i.toInt.natAbs : Int) = i.toInt by omega, Int32.ofInt_toInt]

/-- A double passes to the integer that it equals, and to no other. -/
theorem toInt32?_eq_some_iff (x : Float) (i : Int32) :
    toInt32? x = some i ↔ cmp (ofInt32 i) x = .eq := by
  unfold toInt32?
  constructor
  · intro h
    split at h
    · next hc => rwa [← Option.some.inj h]
    · cases h
  · intro h
    rw [candidate_of_cmp_ofInt32 h, if_pos h]

/-- The negative infinity lies below every integer. -/
theorem negInfinity_lt_ofInt32 (i : Int32) : cmp (-1.0 / 0.0) (ofInt32 i) = .lt := by
  have hmag := magnitude_lt (natAbs_toInt_lt i)
  have hkey : (orderKey (-1.0 / 0.0)).toNat = 1 <<< 52 := by decide +kernel
  have hlt : (orderKey (-1.0 / 0.0)).toNat < (orderKey (ofInt32 i)).toNat := by
    rw [hkey, orderKey_ofInt32]
    split <;> omega
  exact Std.compare_eq_lt.2 (UInt64.lt_iff_toNat_lt.2 hlt)

end Binary64

/-- Doubles are the reals of a running program. -/
instance : Scalar Float where
  ofInt32 := Binary64.ofInt32
  toInt32? := Binary64.toInt32?
  cmp := Binary64.cmp
  add := (· + ·)
  sub := (· - ·)
  mul := (· * ·)
  div := (· / ·)
  negInfinity := -1.0 / 0.0
  transCmp := Binary64.transCmp_cmp
  cmp_ofInt32 := Binary64.cmp_ofInt32
  toInt32?_eq_some_iff := Binary64.toInt32?_eq_some_iff
  negInfinity_lt_ofInt32 := Binary64.negInfinity_lt_ofInt32

end DiceCalculus
