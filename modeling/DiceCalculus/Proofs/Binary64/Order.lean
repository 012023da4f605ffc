import Mathlib.Algebra.Order.Field.Rat
import Mathlib.Order.Compare
import Mathlib.Order.WithBot
import Mathlib.Tactic.NormNum
import Mathlib.Tactic.Ring
import DiceCalculus.Proofs.Binary64.Congruence

set_option autoImplicit false
set_option relaxedAutoImplicit false

/-!
# Doubles in the order of their values

The doubles are ordered by their patterns. This is the order of their exact values: a pattern without its
sign counts the doubles from zero, and each is followed by the next greater one. A pattern of *not a
number* lies above all others, or below them if it has a sign; a double that is *not a number* has no
sign here, though a platform may compute one that has.

## Main definitions

* `Binary64.place`, `Binary64.foldZero`, `Binary64.rank` — the total order of all patterns, the pattern in
  which both zeros are one, and the place of this pattern.
* `Binary64.units` — the magnitude of a pattern, counted in the smallest double above zero.
* `Binary64.value?` — the exact value of a pattern, which is a rational or infinite, unless it is *not a
  number*.
* `Binary64.nan` — the double that is *not a number*.

## Main results

* `Binary64.cmp_eq_compare_rank` — doubles compare as the ranks of their patterns do.
* `Binary64.rank_eq_rank_iff` — only the zeros have different patterns of one rank.
* `Binary64.units_strictMono` — greater patterns have greater magnitudes.
* `Binary64.compare_rank_eq_compare_value` — patterns of numbers have ranks in the order of their values.
* `Binary64.rank_lt_of_nan` — patterns of *not a number* lie outside all others.
* `Binary64.value?_ofInt32` — the value of the double of an integer.
-/

namespace DiceCalculus

namespace Binary64

open Float.Model Float.Model.UnpackedFloat

/-! ## The total order of patterns -/

/-- The pattern of a double in which the negative zero is folded into zero. -/
def foldZero (bits : UInt64) : UInt64 := if bits = 0x8000000000000000 then 0 else bits

/-- The place of a pattern in the total order of all patterns: those without a sign in their own order,
and below them those with a sign in the opposite order. -/
def place (bits : UInt64) : Int :=
  if bits.toNat < 2 ^ 63 then bits.toNat else 2 ^ 63 - 1 - bits.toNat

/-- The rank of a double with a pattern: the place of the pattern with folded zero. -/
def rank (bits : UInt64) : Int := place (foldZero bits)

/-- The magnitude of a pattern under its sign. Both zeros have zero. -/
def signed (bits : UInt64) : Int :=
  if bits.toNat < 2 ^ 63 then bits.toNat else 2 ^ 63 - bits.toNat

/-- Different patterns have different places. -/
lemma place_injective : Function.Injective place := by
  intro b c h
  have hb : b.toNat < 2 ^ 64 := b.toNat_lt_size
  have hc : c.toNat < 2 ^ 64 := c.toNat_lt_size
  refine UInt64.toNat_inj.1 ?_
  unfold place at h
  split at h <;> split at h <;> omega

/-- Ranks in terms of magnitudes under their signs. -/
lemma rank_eq (bits : UInt64) :
    rank bits = if 0 ≤ signed bits then signed bits else signed bits - 1 := by
  have hminus : (0x8000000000000000 : UInt64).toNat = 2 ^ 63 := rfl
  have hbits : bits.toNat < 2 ^ 64 := bits.toNat_lt_size
  unfold rank foldZero
  by_cases h : bits = 0x8000000000000000
  · subst h
    rfl
  · have hne : bits.toNat ≠ 2 ^ 63 := fun heq => h (UInt64.toNat_inj.1 (heq.trans hminus.symm))
    rw [if_neg h]
    unfold place signed
    split <;> split <;> omega

/-- Ranks are ordered as magnitudes under their signs are. -/
lemma compare_rank (b c : UInt64) : compare (rank b) (rank c) = compare (signed b) (signed c) := by
  have hmono : StrictMono fun z : Int => if 0 ≤ z then z else z - 1 := by
    intro y z hyz
    dsimp only
    split <;> split <;> omega
  rw [rank_eq, rank_eq, ← cmp_eq_compare, ← cmp_eq_compare]
  exact hmono.cmp_map_eq (signed b) (signed c)

/-- The key of a double lies as far above or below that of zero as the magnitude says. -/
lemma toNat_orderKey_eq (x : Float) : ((orderKey x).toNat : Int) = 2 ^ 63 + signed x.toBits := by
  have hbits : x.toBits.toNat < 2 ^ 64 := x.toBits.toNat_lt_size
  rw [toNat_orderKey, signed]
  split <;> split <;> omega

/-- Doubles compare as the ranks of their patterns do. -/
theorem cmp_eq_compare_rank (x y : Float) : cmp x y = compare (rank x.toBits) (rank y.toBits) := by
  have hx := toNat_orderKey_eq x
  have hy := toNat_orderKey_eq y
  rw [compare_rank]
  show compare (orderKey x) (orderKey y) = _
  rcases Int.lt_trichotomy (signed x.toBits) (signed y.toBits) with h | h | h
  · rw [Std.compare_eq_lt.2 h, Std.compare_eq_lt.2 (UInt64.lt_iff_toNat_lt.2 (by omega))]
  · have hkey : orderKey x = orderKey y := UInt64.toNat_inj.1 (by omega)
    rw [h, hkey, Std.compare_self, Std.compare_self]
  · rw [Std.compare_eq_gt.2 h, Std.compare_eq_gt.2 (UInt64.lt_iff_toNat_lt.2 (by omega))]

/-! ## Magnitudes -/

/-- The magnitude of a pattern without sign, in units of the smallest double above zero: the fraction
alone at the smallest exponent, and the fraction with its hidden bit under the exponent otherwise. -/
def units (n : Nat) : Nat :=
  if n / 2 ^ 52 = 0 then n % 2 ^ 52 else (2 ^ 52 + n % 2 ^ 52) * 2 ^ (n / 2 ^ 52 - 1)

/-- The magnitudes of one exponent reach up to those of the next. -/
lemma units_lt (n : Nat) : units n < 2 ^ 52 * 2 ^ (n / 2 ^ 52) := by
  have hfraction : n % 2 ^ 52 < 2 ^ 52 := Nat.mod_lt _ (Nat.two_pow_pos 52)
  unfold units
  split
  · next h => rwa [h, Nat.pow_zero, Nat.mul_one]
  · next h =>
    obtain ⟨e, he⟩ := Nat.exists_eq_succ_of_ne_zero h
    have hpow : 2 ^ e.succ = 2 * 2 ^ e := Nat.pow_succ'
    rw [he, Nat.succ_sub_one, hpow, ← Nat.mul_assoc]
    exact Nat.mul_lt_mul_of_pos_right (by omega) (Nat.two_pow_pos e)

/-- The magnitudes of an exponent above the smallest one have the hidden bit. -/
lemma le_units {n : Nat} (h : n / 2 ^ 52 ≠ 0) : 2 ^ 52 * 2 ^ (n / 2 ^ 52 - 1) ≤ units n := by
  unfold units
  rw [if_neg h]
  exact Nat.mul_le_mul_right _ (Nat.le_add_right ..)

/-- Greater patterns have greater magnitudes. -/
theorem units_strictMono : StrictMono units := by
  intro m n hmn
  rcases Nat.lt_or_eq_of_le (Nat.div_le_div_right (c := 2 ^ 52) hmn.le) with hlt | heq
  · calc units m < 2 ^ 52 * 2 ^ (m / 2 ^ 52) := units_lt m
      _ ≤ 2 ^ 52 * 2 ^ (n / 2 ^ 52 - 1) :=
        Nat.mul_le_mul_left _ (Nat.pow_le_pow_right (by decide) (by omega))
      _ ≤ units n := le_units (by omega)
  · have hfraction : m % 2 ^ 52 < n % 2 ^ 52 := by omega
    unfold units
    rw [heq]
    split
    · exact hfraction
    · exact Nat.mul_lt_mul_of_pos_right (Nat.add_lt_add_left hfraction _) (Nat.two_pow_pos _)

/-- The magnitude of a pattern under its sign. -/
def level (bits : UInt64) : Int :=
  if 0 ≤ signed bits then units (signed bits).natAbs else -units (signed bits).natAbs

/-- Ranks are ordered as levels are. -/
lemma compare_rank_eq_compare_level (b c : UInt64) :
    compare (rank b) (rank c) = compare (level b) (level c) := by
  have hmono : StrictMono fun z : Int => if 0 ≤ z then (units z.natAbs : Int) else -units z.natAbs := by
    intro y z hyz
    have hpos {n : Nat} (hn : 0 < n) : 0 < units n := units_strictMono hn
    dsimp only
    split <;> split
    · have := units_strictMono (show y.natAbs < z.natAbs by omega)
      omega
    · omega
    · have := hpos (show 0 < y.natAbs by omega)
      omega
    · have := units_strictMono (show z.natAbs < y.natAbs by omega)
      omega
  rw [compare_rank, ← cmp_eq_compare, ← cmp_eq_compare]
  exact (hmono.cmp_map_eq (signed b) (signed c)).symm

/-! ## Values -/

/-- A rational among those and the two infinite values. -/
def ofRat (q : ℚ) : WithTop (WithBot ℚ) := (q : WithBot ℚ)

/-- Rationals are ordered as before. -/
lemma ofRat_strictMono : StrictMono ofRat := fun _ _ h =>
  WithTop.coe_lt_coe.2 (WithBot.coe_lt_coe.2 h)

/-- The exact value of a double that is taken apart: a rational or infinite, unless it is *not a
number*. -/
def valueOf? : UnpackedFloat → Option (WithTop (WithBot ℚ))
  | .infinity .positive => some ⊤
  | .infinity .negative => some ⊥
  | .notANumber => none
  | .zero _ => some (ofRat 0)
  | .finite s m e _ => some (ofRat ((s.apply m : ℤ) * 2 ^ e))

/-- The exact value of a pattern. -/
def value? (bits : UInt64) : Option (WithTop (WithBot ℚ)) :=
  valueOf? (UnpackedFloat.unpack .binary64 bits.toBitVec)

/-- The magnitude that the pattern of infinity would have. -/
def topLevel : Int := units (2047 * 2 ^ 52)

/-- The value at a level, which is infinite at the level of infinity. -/
def gridValue (z : Int) : WithTop (WithBot ℚ) :=
  if z = topLevel then ⊤ else if z = -topLevel then ⊥ else ofRat (z * 2 ^ (-1074 : ℤ))

section Fields

variable (bits : UInt64)

/-- The magnitude of a pattern in natural numbers. -/
lemma natAbs_signed : (signed bits).natAbs = bits.toNat % 2 ^ 63 := by
  have hbits : bits.toNat < 2 ^ 64 := bits.toNat_lt_size
  unfold signed
  split <;> omega

/-- The field of the exponent. -/
lemma toNat_unpackExponent :
    (@unpackExponent .binary64 bits.toBitVec).toNat = (signed bits).natAbs / 2 ^ 52 := by
  rw [natAbs_signed]
  simp only [unpackExponent, BitVec.toNat_cast, BitVec.extractLsb_toNat, UInt64.toNat_toBitVec]
  show bits.toNat >>> 52 % 2048 = _
  rw [Nat.shiftRight_eq_div_pow]
  omega

/-- The field of the fraction. -/
lemma toNat_unpackMantissa :
    (@unpackMantissa .binary64 bits.toBitVec).toNat = (signed bits).natAbs % 2 ^ 52 := by
  rw [natAbs_signed]
  simp only [unpackMantissa, BitVec.toNat_cast, BitVec.extractLsb_toNat, UInt64.toNat_toBitVec]
  show bits.toNat >>> 0 % 2 ^ 52 = _
  rw [Nat.shiftRight_zero]
  omega

/-- The sign of a pattern. -/
lemma ofBitVec_unpackSign : Sign.ofBitVec (@unpackSign .binary64 bits.toBitVec) =
    if bits.toNat < 2 ^ 63 then .positive else .negative := by
  have hbits : bits.toNat < 2 ^ 64 := bits.toNat_lt_size
  have hsign : (@unpackSign .binary64 bits.toBitVec).toNat = bits.toNat / 2 ^ 63 := by
    simp only [unpackSign, BitVec.toNat_cast, BitVec.extractLsb_toNat, UInt64.toNat_toBitVec]
    show bits.toNat >>> 63 % 2 = _
    rw [Nat.shiftRight_eq_div_pow]
    omega
  unfold Sign.ofBitVec
  refine if_congr ?_ rfl rfl
  rw [← BitVec.toNat_inj, hsign]
  show bits.toNat / 2 ^ 63 = 0 ↔ _
  omega

end Fields

/-- A magnitude under the sign of its pattern. -/
lemma level_eq (bits : UInt64) : level bits =
    (if bits.toNat < 2 ^ 63 then Sign.positive else .negative).apply (units (signed bits).natAbs) := by
  have hbits : bits.toNat < 2 ^ 64 := bits.toNat_lt_size
  have hzero : units 0 = 0 := rfl
  unfold level
  by_cases h : bits.toNat < 2 ^ 63
  · rw [if_pos h, if_pos (by unfold signed; omega)]
    rfl
  · rw [if_neg h]
    by_cases hminus : bits.toNat = 2 ^ 63
    · have hsigned : signed bits = 0 := by
        unfold signed
        omega
      rw [hsigned]
      rfl
    · rw [if_neg (by unfold signed; omega)]
      rfl

/-- A mantissa under a sign that is shifted up is one with a smaller exponent. -/
lemma apply_shift (s : Sign) (m : Nat) {e : Nat} (he : e ≠ 0) :
    ((s.apply m : Int) : ℚ) * 2 ^ ((e : Int) - (1023 + (52 : Nat))) =
      (s.apply (m * 2 ^ (e - 1) : Nat) : Int) * 2 ^ (-1074 : ℤ) := by
  have hpow : (2 : ℚ) ^ ((e : Int) - (1023 + (52 : Nat))) = 2 ^ (e - 1) * 2 ^ (-1074 : ℤ) := by
    rw [← zpow_natCast, ← zpow_add₀ (by norm_num)]
    congr 1
    omega
  rw [hpow]
  generalize (2 : ℚ) ^ (-1074 : ℤ) = unit
  cases s with
  | positive =>
    simp only [Sign.apply]
    push_cast
    ring
  | negative =>
    simp only [Sign.apply]
    push_cast
    ring

/-- The magnitude at a level. -/
lemma natAbs_level (bits : UInt64) : (level bits).natAbs = units (signed bits).natAbs := by
  unfold level
  split <;> omega

/-- The exact value of a pattern, field by field.

**Proof sketch.** The exponent and the mantissa of the pattern are the quotient and the remainder of
its magnitude by `2 ^ 52`. With all ones in the exponent there is no value but infinity; with all
zeros the magnitude is the fraction; otherwise the fraction has its hidden bit and is shifted up by
the exponent. -/
lemma value?_eq_fields (bits : UInt64) : value? bits =
    if (signed bits).natAbs / 2 ^ 52 = 2047 then
      if (signed bits).natAbs % 2 ^ 52 = 0 then
        valueOf? (.infinity (if bits.toNat < 2 ^ 63 then .positive else .negative))
      else none
    else some (ofRat (level bits * 2 ^ (-1074 : ℤ))) := by
  have hexponent := toNat_unpackExponent bits
  have hmantissa := toNat_unpackMantissa bits
  have hbias : (Format.binary64.exponentBias : Int) = 1023 := by decide
  have hones : @unpackExponent .binary64 bits.toBitVec = -1#_ ↔
      (signed bits).natAbs / 2 ^ 52 = 2047 := by
    rw [← BitVec.toNat_inj, hexponent]
    exact Iff.rfl
  have hzeros : @unpackExponent .binary64 bits.toBitVec = 0#_ ↔
      (signed bits).natAbs / 2 ^ 52 = 0 := by
    rw [← BitVec.toNat_inj, hexponent]
    exact Iff.rfl
  have hempty : @unpackMantissa .binary64 bits.toBitVec = 0#_ ↔
      (signed bits).natAbs % 2 ^ 52 = 0 := by
    rw [← BitVec.toNat_inj, hmantissa]
    exact Iff.rfl
  have hlevel := level_eq bits
  rw [← ofBitVec_unpackSign bits] at hlevel ⊢
  unfold value? UnpackedFloat.unpack
  dsimp only
  rw [hbias, hexponent]
  by_cases hinfinite : (signed bits).natAbs / 2 ^ 52 = 2047
  · rw [if_pos hinfinite, if_pos (hones.2 hinfinite)]
    by_cases hfraction : (signed bits).natAbs % 2 ^ 52 = 0
    · rw [if_pos hfraction, if_pos (hempty.2 hfraction)]
    · rw [if_neg hfraction, if_neg (mt hempty.1 hfraction)]
      rfl
  rw [if_neg hinfinite, if_neg (mt hones.1 hinfinite)]
  by_cases hsmall : (signed bits).natAbs / 2 ^ 52 = 0
  · -- the exponent is the smallest one, and the magnitude is the fraction
    have hunits : units (signed bits).natAbs = (signed bits).natAbs % 2 ^ 52 := if_pos hsmall
    rw [if_pos (hzeros.2 hsmall)]
    by_cases hfraction : (signed bits).natAbs % 2 ^ 52 = 0
    · rw [dif_pos (hempty.2 hfraction), hlevel, hunits, hfraction]
      cases Sign.ofBitVec (@unpackSign .binary64 bits.toBitVec) <;> simp [valueOf?, Sign.apply]
    · rw [dif_neg (mt hempty.1 hfraction), hlevel, hunits, hsmall]
      simp only [valueOf?, hmantissa]
      rfl
  · -- the fraction has its hidden bit, and is shifted up by the exponent
    have hunits : units (signed bits).natAbs = (2 ^ 52 + (signed bits).natAbs % 2 ^ 52) *
      2 ^ ((signed bits).natAbs / 2 ^ 52 - 1) := if_neg hsmall
    rw [if_neg (mt hzeros.1 hsmall), hlevel, hunits]
    simp only [valueOf?, toNat_hidden, hmantissa, apply_shift _ _ hsmall]

/-- The level of infinity is above zero. -/
lemma topLevel_pos : 0 < topLevel := by
  have h := units_strictMono (show 0 < 2047 * 2 ^ 52 by decide)
  exact Int.natCast_pos.2 (Nat.zero_lt_of_lt h)

/-- The infinite values are those at the level of infinity, under either sign. -/
lemma valueOf?_infinity (s : Sign) : valueOf? (.infinity s) = some (gridValue (s.apply topLevel)) := by
  cases s with
  | positive =>
    rw [gridValue, if_pos (show Sign.positive.apply topLevel = topLevel from rfl)]
    rfl
  | negative =>
    have hne : Sign.negative.apply topLevel ≠ topLevel := by
      have htop := topLevel_pos
      show -topLevel ≠ topLevel
      omega
    rw [gridValue, if_neg hne, if_pos (show Sign.negative.apply topLevel = -topLevel from rfl)]
    rfl

/-- The exact value of a pattern is the one at its level, unless that is beyond the level of infinity, when
the pattern is *not a number*.

**Proof sketch.** The exponent has all its bits exactly if the magnitude is at least that of infinity, and
then the fraction tells whether it is greater. -/
lemma value?_eq (bits : UInt64) : value? bits =
    if ((level bits).natAbs : Int) ≤ topLevel then some (gridValue (level bits)) else none := by
  have hsmall : (signed bits).natAbs < 2 ^ 63 := by
    rw [natAbs_signed]
    exact Nat.mod_lt _ (Nat.two_pow_pos 63)
  have hle : ((level bits).natAbs : Int) ≤ topLevel ↔ (signed bits).natAbs ≤ 2047 * 2 ^ 52 := by
    rw [natAbs_level, topLevel, Int.ofNat_le]
    exact units_strictMono.le_iff_le
  rw [value?_eq_fields]
  by_cases hinfinite : (signed bits).natAbs / 2 ^ 52 = 2047
  · rw [if_pos hinfinite]
    by_cases hfraction : (signed bits).natAbs % 2 ^ 52 = 0
    · have htop : (signed bits).natAbs = 2047 * 2 ^ 52 := by omega
      rw [if_pos hfraction, if_pos (hle.2 htop.le), valueOf?_infinity, level_eq, htop]
      rfl
    · rw [if_neg hfraction, if_neg (mt hle.1 (by omega))]
  · have hne : ((level bits).natAbs : Int) ≠ topLevel := by
      rw [natAbs_level, topLevel, Ne, Int.ofNat_inj, units_strictMono.injective.eq_iff]
      omega
    have htop := topLevel_pos
    rw [if_neg hinfinite, if_pos (hle.2 (by omega)), gridValue, if_neg (by omega), if_neg (by omega)]

/-- Higher levels have greater values, up to that of infinity. -/
lemma gridValue_strictMonoOn : StrictMonoOn gridValue (Set.Icc (-topLevel) topLevel) := by
  intro y hy z hz hyz
  have htop := topLevel_pos
  obtain ⟨hy, -⟩ := hy
  obtain ⟨-, hz⟩ := hz
  unfold gridValue
  rw [if_neg (show y ≠ topLevel by omega), if_neg (show z ≠ -topLevel by omega)]
  split <;> split
  · exact bot_lt_top
  · exact WithTop.coe_lt_coe.2 (WithBot.bot_lt_coe _)
  · exact WithTop.coe_lt_top _
  · refine ofRat_strictMono ?_
    exact mul_lt_mul_of_pos_right (Int.cast_lt.2 hyz) (zpow_pos (by norm_num) _)

variable {b c : UInt64} {v w : WithTop (WithBot ℚ)}

/-- A pattern with a value has a level up to that of infinity, at which it has its value. -/
lemma level_mem_of_value? (h : value? b = some v) :
    level b ∈ Set.Icc (-topLevel) topLevel ∧ gridValue (level b) = v := by
  rw [value?_eq] at h
  split at h
  · next hle =>
    refine ⟨⟨?_, ?_⟩, Option.some_inj.1 h⟩ <;> omega
  · cases h

/-- Ranks of patterns that have values, infinite ones included, are ordered as these are. -/
theorem compare_rank_eq_compare_value (hb : value? b = some v) (hc : value? c = some w) :
    compare (rank b) (rank c) = compare v w := by
  obtain ⟨hlevel, rfl⟩ := level_mem_of_value? hb
  obtain ⟨hlevel', rfl⟩ := level_mem_of_value? hc
  rw [compare_rank_eq_compare_level, ← cmp_eq_compare, ← cmp_eq_compare]
  exact (gridValue_strictMonoOn.cmp_map_eq hlevel hlevel').symm

/-- A pattern of *not a number* lies above all others if it has no sign, and below them if it has one. -/
theorem rank_lt_of_nan (hb : value? b = none) (hc : value? c = some w) :
    if b.toNat < 2 ^ 63 then rank c < rank b else rank b < rank c := by
  obtain ⟨⟨hlow, hhigh⟩, -⟩ := level_mem_of_value? hc
  have hnot : ¬((level b).natAbs : Int) ≤ topLevel := fun hle => by
    rw [value?_eq, if_pos hle] at hb
    cases hb
  have htop := topLevel_pos
  have hlevel := level_eq b
  have hcompare := compare_rank_eq_compare_level
  split
  · next h =>
    rw [if_pos h] at hlevel
    change level b = units (signed b).natAbs at hlevel
    rw [← compare_lt_iff_lt, hcompare, compare_lt_iff_lt]
    omega
  · next h =>
    rw [if_neg h] at hlevel
    change level b = -units (signed b).natAbs at hlevel
    rw [← compare_lt_iff_lt, hcompare, compare_lt_iff_lt]
    omega

/-- Two patterns have one rank only if they are the same or the two zeros. -/
theorem rank_eq_rank_iff (b c : UInt64) : rank b = rank c ↔
    b = c ∨ (b = 0 ∨ b = 0x8000000000000000) ∧ (c = 0 ∨ c = 0x8000000000000000) := by
  unfold rank
  rw [place_injective.eq_iff]
  unfold foldZero
  by_cases hb : b = 0x8000000000000000 <;> by_cases hc : c = 0x8000000000000000
  · simp [hb, hc]
  · simp [hb, hc, eq_comm]
  · simp [hb, hc]
  · simp only [hb, hc, if_false, or_false]
    exact ⟨.inl, fun h => h.elim id fun h => h.1.trans h.2.symm⟩

/-! ## Doubles -/

/-- The double that is *not a number*. -/
def nan : Float := .ofModel (.pack .notANumber)

/-- A double has a value unless it is *not a number*. -/
lemma value?_eq_none_iff (x : Float) : value? x.toBits = none ↔ x = nan := by
  constructor
  · intro h
    have hexponent := toNat_unpackExponent x.toBits
    have hmantissa := toNat_unpackMantissa x.toBits
    rw [value?_eq_fields] at h
    split at h
    · next hones =>
      split at h
      · split at h <;> cases h
      · next hfraction =>
        have hpattern : x.toBits.toBitVec = packedNaN .binary64 :=
          x.toModel.valid.eq_packedNaN (BitVec.eq_of_toNat_eq (hexponent.trans hones))
            fun hzero => hfraction (hmantissa.symm.trans (congrArg BitVec.toNat hzero))
        exact eq_of_toBits (congrArg BitVec.toNat hpattern)
    · cases h
  · rintro rfl
    decide +kernel

/-- The exact value of a number of at most 53 bits that is shifted. -/
lemma valueOf?_unpackedAt (s : Sign) {n : Nat} (hlt : n < 2 ^ 53) {e : Int} (he : -1074 ≤ e) :
    valueOf? (unpackedAt s n e) = some (ofRat ((s.apply n : Int) * 2 ^ e)) := by
  by_cases hn : n = 0
  · subst hn
    cases s <;> simp [unpackedAt, valueOf?, Sign.apply]
  have hle := leading_le hlt he
  have hpow : (2 : ℚ) ^ (e - leading n e).toNat * 2 ^ leading n e = 2 ^ e := by
    rw [← zpow_natCast, ← zpow_add₀ (by norm_num)]
    congr 1
    omega
  rw [unpackedAt_of_ne_zero s hn, valueOf?, apply_natCast_mul]
  push_cast
  rw [mul_assoc, hpow]

/-- A number of at most 53 bits that is shifted is not rounded, unless it is too great. -/
lemma valueOf?_pack_normalize (s : Sign) {n t : Nat} (hlt : n < 2 ^ 53) {e : Int}
    (he : -1074 ≤ e + t) (htop : n.log2 + (e + t) ≤ 1023) :
    valueOf? (Float.Model.pack (.normalize .binary64 (s.apply (n * 2 ^ t : Nat)) e .positive)).unpack =
      some (ofRat ((s.apply n : ℤ) * 2 ^ (e + t))) := by
  by_cases hn : n = 0
  · subst hn
    have hzero : s.apply (0 : Nat) = 0 := by cases s <;> rfl
    rw [Nat.zero_mul, hzero, Int.cast_zero, zero_mul, UnpackedFloat.normalize, Std.compare_self]
    exact congrArg valueOf? (unpack_pack_unpackedNat .positive (n := 0) (by decide))
  rw [normalize_apply s hn hlt he, ← valueOf?_unpackedAt s hlt he, unpackedAt_of_ne_zero s hn,
    unpack_pack_finite s (isCanonical_unpackedAt hn hlt he htop)]

/-- The exact value of a natural number under a sign. -/
lemma valueOf?_unpackedNat (s : Sign) {n : Nat} (hlt : n < 2 ^ 53) :
    valueOf? (unpackedNat s n) = some (ofRat (s.apply n : Int)) := by
  rw [← unpackedAt_zero s hlt, valueOf?_unpackedAt s hlt (by decide), zpow_zero, mul_one]

/-- The exact value of the double of an integer is the integer. -/
theorem value?_ofInt32 (i : Int32) :
    value? (ofInt32 i).toBits = some (ofRat i.toInt) := by
  show valueOf? (ofInt32 i).toModel.unpack = _
  rw [unpack_ofInt32]
  refine (valueOf?_unpackedNat _ (natAbs_toInt_lt_two_pow i)).trans ?_
  rw [apply_signOf]

/-- Doubles compare as their values do, unless one of them is *not a number*. -/
lemma cmp_eq_compare_value {x y : Float} {v w : WithTop (WithBot ℚ)} (hx : value? x.toBits = some v)
    (hy : value? y.toBits = some w) : cmp x y = compare v w :=
  (cmp_eq_compare_rank x y).trans (compare_rank_eq_compare_value hx hy)

/-- Doubles compare equal only if they are the same or the two zeros. -/
lemma cmp_eq_eq_iff (x y : Float) :
    cmp x y = .eq ↔ x = y ∨ (x = 0.0 ∨ x = -0.0) ∧ (y = 0.0 ∨ y = -0.0) := by
  have hzero (s : Sign) : Float.ofModel (.pack (.zero s)) = 0.0 ∨
      Float.ofModel (.pack (.zero s)) = -0.0 := by
    cases s with
    | positive => exact .inl rfl
    | negative => exact .inr (by decide +kernel)
  have := transCmp_cmp
  constructor
  · intro h
    rcases eq_or_zero_of_cmp h with h | ⟨s, s', rfl, rfl⟩
    · exact .inl h
    · exact .inr ⟨hzero s, hzero s'⟩
  · rintro (rfl | ⟨rfl | rfl, rfl | rfl⟩)
    · exact Std.ReflCmp.compare_self
    all_goals decide +kernel

end Binary64

end DiceCalculus
