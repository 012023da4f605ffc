import DiceCalculus.Proofs.Binary64.Order

set_option autoImplicit false
set_option relaxedAutoImplicit false

/-!
# Casts of doubles to integers

A double may be cast to an integer of 32 bits if nothing is lost: it has no fractional part, and it
lies between the least and the greatest of these integers. The cast itself drops the fractional
part, stops at the bounds and makes a zero of what is *not a number*, so that without the test it
would give an integer for every double. With the test it gives the integer that the double equals,
if there is one.

## Main definitions

* `Binary64.trunc`, `Binary64.fract` — a double without its fractional part, and the fractional
  part.
* `Binary64.exactCast?` — the cast behind its test.

## Main results

* `Binary64.value?_ofBits` — every pattern has the value of its double.
* `Binary64.compare_eq_compare_rat` — the comparison of finite doubles is that of their values.
* `Binary64.value?_fract` — the fractional part of a finite double is computed without an error.
* `Binary64.fract_beq_zero_iff` — a double has no fractional part if its value is an integer.
* `Binary64.exactCast?_eq_some_iff` — the cast that is tested gives the exact value.
-/

namespace DiceCalculus

namespace Binary64

open Float.Model Float.Model.UnpackedFloat

/-! ## Definitions -/

/-- A double that is taken apart, without the fractional part, which is dropped under either
sign. -/
def truncated : UnpackedFloat → UnpackedFloat
  | .finite s m e hm => if 0 ≤ e then .finite s m e hm else unpackedNat s (m / 2 ^ (-e).toNat)
  | u => u

/-- A double without its fractional part. -/
def trunc (x : Float) : Float := .ofModel (.pack (truncated x.toModel.unpack))

/-- The fractional part of a double, under its sign. -/
def fract (x : Float) : Float := x - trunc x

/-- The cast of a double to an integer of 32 bits, for doubles that have no fractional part and lie
between the least and the greatest of these integers. -/
def exactCast? (x : Float) : Option Int32 :=
  if fract x == 0.0 ∧ ofInt32 .minValue ≤ x ∧ x ≤ ofInt32 .maxValue then some x.toModel.toInt32
  else none

/-! ## Patterns taken apart -/

/-- The mantissa and the exponent of a pattern are canonical. -/
lemma isCanonical_of_unpack {b : UInt64} {s : Sign} {m : Nat} {e : Int} {hm : 0 < m}
    (h : UnpackedFloat.unpack .binary64 b.toBitVec = .finite s m e hm) : IsCanonical m e := by
  have hbias : (Format.binary64.exponentBias : Int) = 1023 := by decide
  have hexponent := (@unpackExponent .binary64 b.toBitVec).isLt
  have hfraction := (@unpackMantissa .binary64 b.toBitVec).isLt
  change _ < 2 ^ 11 at hexponent
  change _ < 2 ^ 52 at hfraction
  unfold UnpackedFloat.unpack at h
  dsimp only at h
  rw [hbias] at h
  split at h
  · split at h <;> cases h
  next hfinite =>
  rw [← BitVec.toNat_inj] at hfinite
  change _ ≠ 2047 at hfinite
  split at h
  · next hzero =>
    rw [hzero] at h
    split at h
    · cases h
    · cases h
      exact ⟨by omega, by decide, by decide, .inl (by decide)⟩
  · next hnormal =>
    rw [← BitVec.toNat_inj] at hnormal
    change _ ≠ 0 at hnormal
    injection h with _ hmantissa hvalue
    rw [toNat_hidden] at hmantissa
    exact ⟨by omega, by omega, by omega, .inr (by omega)⟩

/-- The double of a pattern is taken apart as the pattern is. -/
lemma unpack_ofBits (b : UInt64) :
    (Float.ofBits b).toModel.unpack = UnpackedFloat.unpack .binary64 b.toBitVec := by
  show (Float.Model.pack (UnpackedFloat.unpack .binary64 b.toBitVec)).unpack = _
  cases hu : UnpackedFloat.unpack .binary64 b.toBitVec with
  | infinity s => cases s <;> rfl
  | notANumber => rfl
  | zero s => cases s <;> rfl
  | finite s m e hm => exact unpack_pack_finite s (isCanonical_of_unpack hu) hm

/-- The double of a pattern has the value of the pattern. -/
theorem value?_ofBits (b : UInt64) : value? (Float.ofBits b).toBits = value? b :=
  congrArg valueOf? (unpack_ofBits b)

/-- A pattern has the rank of an integer if it has its value. -/
lemma rank_eq_rank_ofInt32_iff (b : UInt64) (i : Int32) :
    rank b = rank (ofInt32 i).toBits ↔ value? b = some (ofRat i.toInt) := by
  have hi := value?_ofInt32 i
  cases hb : value? b with
  | none =>
    have hrank := rank_lt_of_nan hb hi
    refine iff_of_false (fun heq => ?_) nofun
    split at hrank <;> omega
  | some v =>
    rw [← compare_eq_iff_eq, compare_rank_eq_compare_value hb hi, compare_eq_iff_eq, Option.some_inj]

/-! ## Comparisons of finite doubles -/

section Compare

variable {m m' : Nat} {e e' : Int} (h : IsCanonical m e) (h' : IsCanonical m' e')

include h h'

/-- Under a greater exponent, the mantissa of a double has a greater value, whatever it is. -/
lemma value_lt_of_exponent_lt (hlt : e < e') : (m : ℚ) * 2 ^ e < m' * 2 ^ e' := by
  have hlow := h.le_exponent
  have hbit : 2 ^ 52 ≤ m' := h'.normal.resolve_left (by omega)
  have hmantissa : (m : ℚ) < 2 ^ 53 := by exact_mod_cast h.lt
  have hmantissa' : (2 : ℚ) ^ 52 ≤ m' := by exact_mod_cast hbit
  calc (m : ℚ) * 2 ^ e < 2 ^ 53 * 2 ^ e :=
        mul_lt_mul_of_pos_right hmantissa (zpow_pos (by norm_num) e)
    _ = 2 ^ 52 * 2 ^ (e + 1) := by
        rw [zpow_add_one₀ (by norm_num)]
        ring
    _ ≤ 2 ^ 52 * 2 ^ e' :=
        mul_le_mul_of_nonneg_left (zpow_le_zpow_right₀ (by norm_num) (by omega)) (by norm_num)
    _ ≤ m' * 2 ^ e' := mul_le_mul_of_nonneg_right hmantissa' (zpow_nonneg (by norm_num) e')

/-- Magnitudes are compared by their exponents first, and then by their mantissas. -/
lemma compare_magnitude :
    (compare e e').then (compare m m') = compare ((m : ℚ) * 2 ^ e) (m' * 2 ^ e') := by
  rcases Int.lt_trichotomy e e' with hlt | rfl | hgt
  · rw [Std.compare_eq_lt.2 hlt, compare_lt_iff_lt.2 (value_lt_of_exponent_lt h h' hlt)]
    rfl
  · have hpos : (0 : ℚ) < 2 ^ e := zpow_pos (by norm_num) e
    have hmono : StrictMono fun k : Nat => (k : ℚ) * 2 ^ e := fun _ _ hlt =>
      mul_lt_mul_of_pos_right (Nat.cast_lt.2 hlt) hpos
    rw [Std.compare_self, ← cmp_eq_compare, ← cmp_eq_compare]
    exact (hmono.cmp_map_eq m m').symm
  · rw [Std.compare_eq_gt.2 hgt, compare_gt_iff_gt.2 (value_lt_of_exponent_lt h' h hgt)]
    rfl

end Compare

/-- A double of finite value is taken apart into a zero or into a mantissa and an exponent. -/
lemma eq_zero_or_finite_of_valueOf? {u : UnpackedFloat} {p : ℚ} (h : valueOf? u = some (ofRat p)) :
    (∃ s, u = .zero s ∧ p = 0) ∨
      ∃ s m e hm, u = .finite s m e hm ∧ p = (s.apply m : ℤ) * 2 ^ e := by
  have hinj := ofRat_strictMono.injective
  cases u with
  | infinity s =>
    cases s with
    | positive => exact absurd (Option.some_inj.1 h).symm WithTop.coe_ne_top
    | negative =>
      exact absurd (WithTop.coe_inj.1 (Option.some_inj.1 h)).symm WithBot.coe_ne_bot
  | notANumber => cases h
  | zero s => exact .inl ⟨s, rfl, (hinj (Option.some_inj.1 h)).symm⟩
  | finite s m e hm => exact .inr ⟨s, m, e, hm, rfl, (hinj (Option.some_inj.1 h)).symm⟩

/-- The comparison of finite doubles is that of their values.

**Proof sketch.** By the forms of both doubles, each a zero or finite. Zeros and numbers of
different signs are compared by the sign alone, positive numbers by their magnitudes
(`compare_magnitude`), and negative ones by their magnitudes the other way round. -/
theorem compare_eq_compare_rat {x y : Float} {p q : ℚ} (hx : value? x.toBits = some (ofRat p))
    (hy : value? y.toBits = some (ofRat q)) :
    x.toModel.unpack.compare y.toModel.unpack = some (compare p q) := by
  have hpos {m : Nat} (hm : 0 < m) (e : Int) : (0 : ℚ) < m * 2 ^ e :=
    mul_pos (Nat.cast_pos.2 hm) (zpow_pos (by norm_num) e)
  rcases eq_zero_or_finite_of_valueOf? hx with ⟨s, hu, rfl⟩ | ⟨s, m, e, hm, hu, rfl⟩ <;>
    rcases eq_zero_or_finite_of_valueOf? hy with ⟨s', hv, rfl⟩ | ⟨s', m', e', hm', hv, rfl⟩ <;>
    change x.toModel.unpack = _ at hu <;> change y.toModel.unpack = _ at hv <;> rw [hu, hv]
  · rw [Std.compare_self]
    rfl
  · have hpos' := hpos hm' e'
    cases s' with
    | positive => simpa [Sign.apply, UnpackedFloat.compare] using (compare_lt_iff_lt.2 hpos').symm
    | negative =>
      simpa [Sign.apply, UnpackedFloat.compare] using (compare_gt_iff_gt.2 (neg_lt_zero.2 hpos')).symm
  · have hpos' := hpos hm e
    cases s with
    | positive => simpa [Sign.apply, UnpackedFloat.compare] using (compare_gt_iff_gt.2 hpos').symm
    | negative =>
      simpa [Sign.apply, UnpackedFloat.compare] using (compare_lt_iff_lt.2 (neg_lt_zero.2 hpos')).symm
  · have hless := hpos hm e
    have hless' := hpos hm' e'
    have hcompare := compare_magnitude (isCanonical_of_unpack hu) (isCanonical_of_unpack hv)
    cases s with
    | positive =>
      cases s' with
      | positive => simp [Sign.apply, UnpackedFloat.compare, hcompare]
      | negative =>
        have hgt : -((m' : ℚ) * 2 ^ e') < m * 2 ^ e := by linarith
        simpa [Sign.apply, UnpackedFloat.compare] using (compare_gt_iff_gt.2 hgt).symm
    | negative =>
      cases s' with
      | positive =>
        have hlt : -((m : ℚ) * 2 ^ e) < m' * 2 ^ e' := by linarith
        simpa [Sign.apply, UnpackedFloat.compare] using (compare_lt_iff_lt.2 hlt).symm
      | negative =>
        have hanti : StrictAnti fun r : ℚ => -r := fun _ _ hlt => neg_lt_neg hlt
        have hswap := hanti.cmp_map_eq ((m : ℚ) * 2 ^ e) (m' * 2 ^ e')
        rw [cmp_eq_compare, cmp_eq_compare] at hswap
        simpa [Sign.apply, UnpackedFloat.compare, hcompare, hswap] using
          Std.OrientedCmp.eq_swap.symm

/-- A finite double is at most another if its value is. -/
lemma le_iff_rat {x y : Float} {p q : ℚ} (hx : value? x.toBits = some (ofRat p))
    (hy : value? y.toBits = some (ofRat q)) : x ≤ y ↔ p ≤ q := by
  have hcompare := compare_eq_compare_rat hx hy
  show decide ((x.toModel.unpack.compare y.toModel.unpack).any (·.isLE) = true) = true ↔ _
  rw [hcompare, decide_eq_true_eq]
  exact Ordering.ne_gt_iff_isLE.symm.trans compare_le_iff_le

/-- Two finite doubles are equal if their values are. -/
lemma beq_iff_rat {x y : Float} {p q : ℚ} (hx : value? x.toBits = some (ofRat p))
    (hy : value? y.toBits = some (ofRat q)) : x == y ↔ p = q := by
  have hcompare := compare_eq_compare_rat hx hy
  show (x.toModel.unpack.compare y.toModel.unpack == some .eq) = true ↔ _
  rw [hcompare, beq_iff_eq, Option.some_inj, compare_eq_iff_eq]

/-! ## The fractional part -/

section Fraction

variable {x : Float} {s : Sign} {m : Nat} {e : Int} {hm : 0 < m}

/-- What is left of a mantissa and an exponent without the fractional part. -/
lemma truncated_finite (s : Sign) (m : Nat) (e : Int) (hm : 0 < m) : truncated (.finite s m e hm) =
    if 0 ≤ e then .finite s m e hm else unpackedNat s (m / 2 ^ (-e).toNat) := rfl

/-- A double of which the fractional part is dropped is not rounded. -/
lemma unpack_trunc (x : Float) : (trunc x).toModel.unpack = truncated x.toModel.unpack := by
  show (Float.Model.pack (truncated x.toModel.unpack)).unpack = _
  cases hu : x.toModel.unpack with
  | infinity s => cases s <;> rfl
  | notANumber => rfl
  | zero s => cases s <;> rfl
  | finite s m e hm =>
    have hcanonical := isCanonical_of_unpack hu
    rw [truncated_finite]
    split
    · exact unpack_pack_finite s hcanonical hm
    · exact unpack_pack_unpackedNat s ((Nat.div_le_self ..).trans_lt hcanonical.lt)

/-- What is left of a mantissa of a double, without its fractional part, has its leading bit at the
same place. -/
lemma log2_div (h : IsCanonical m e) (hn : m / 2 ^ (-e).toNat ≠ 0) :
    (m / 2 ^ (-e).toNat).log2 + (-e).toNat = 52 := by
  have hpow : 2 ^ (-e).toNat ≤ m := (Nat.div_ne_zero_iff.1 hn).2
  have hfew : (-e).toNat < 53 := (Nat.pow_lt_pow_iff_right (by decide)).1 (hpow.trans_lt h.lt)
  have hbit : 2 ^ 52 ≤ m := h.normal.resolve_left (by omega)
  have hlow : 2 ^ (52 - (-e).toNat) ≤ m / 2 ^ (-e).toNat := by
    rw [Nat.le_div_iff_mul_le (Nat.two_pow_pos _), ← Nat.pow_add, Nat.sub_add_cancel (by omega)]
    exact hbit
  have hhigh : m / 2 ^ (-e).toNat < 2 ^ (53 - (-e).toNat) := by
    rw [Nat.div_lt_iff_lt_mul (Nat.two_pow_pos _), ← Nat.pow_add, Nat.sub_add_cancel (by omega)]
    exact h.lt
  have hle := (Nat.le_log2 hn).2 hlow
  have hlt := (Nat.log2_lt hn).2 hhigh
  omega

/-- Without its fractional part, a mantissa leaves the mantissa of the fractional part. -/
lemma sub_truncated (h : IsCanonical m e) (hn : m / 2 ^ (-e).toNat ≠ 0) :
    UnpackedFloat.sub .binary64 (.finite s m e hm) (truncated (.finite s m e hm)) =
      .normalize .binary64 (s.apply (m % 2 ^ (-e).toNat : Nat)) e .positive := by
  rw [truncated_finite]
  split
  · next he =>
    have hwhole : (-e).toNat = 0 := by omega
    have hempty : s.apply (0 : Nat) = 0 := by cases s <;> rfl
    rw [hwhole, Nat.pow_zero, Nat.mod_one, hempty]
    show UnpackedFloat.normalize .binary64 (s.apply (decreaseExponent m e (min e e)).1 -
      s.apply (decreaseExponent m e (min e e)).1) (min e e) .positive = _
    rw [Int.sub_self, min_self]
  · next he =>
    have hlog := log2_div h hn
    have hexponent : ((m / 2 ^ (-e).toNat).log2 : Int) - 52 = e := by omega
    have hshift : 52 - (m / 2 ^ (-e).toNat).log2 = (-e).toNat := by omega
    have hsplit := Nat.div_add_mod' m (2 ^ (-e).toNat)
    rw [unpackedNat_of_ne_zero s hn]
    simp only [hexponent, hshift]
    show UnpackedFloat.normalize .binary64 (s.apply (decreaseExponent m e (min e e)).1 -
      s.apply (decreaseExponent _ e (min e e)).1) (min e e) .positive = _
    have hsame (k : Nat) : (decreaseExponent k e (min e e)).1 = k := by
      simp [decreaseExponent]
    rw [hsame, hsame, min_self]
    congr 1
    cases s with
    | positive => simp only [Sign.apply]; omega
    | negative => simp only [Sign.apply]; omega

/-- The fractional part of a finite double is computed without an error. -/
theorem value?_fract (hu : x.toModel.unpack = .finite s m e hm) :
    value? (fract x).toBits = some (ofRat ((s.apply (m % 2 ^ (-e).toNat : Nat) : ℤ) * 2 ^ e)) := by
  have hcanonical := isCanonical_of_unpack hu
  have hlt := hcanonical.lt
  show valueOf? (Float.Model.pack (UnpackedFloat.sub .binary64 x.toModel.unpack
    (trunc x).toModel.unpack)).unpack = _
  rw [unpack_trunc, hu]
  by_cases hn : m / 2 ^ (-e).toNat = 0
  · -- the double lies between `-1` and `1`, and a zero is taken from it
    have he : ¬0 ≤ e := fun he => by
      have hwhole : (-e).toNat = 0 := by omega
      rw [hwhole, Nat.pow_zero, Nat.div_one] at hn
      omega
    have hsmall : m % 2 ^ (-e).toNat = m := by
      have := Nat.div_add_mod m (2 ^ (-e).toNat)
      rwa [hn, Nat.mul_zero, Nat.zero_add] at this
    rw [truncated_finite, if_neg he, hn, hsmall]
    show valueOf? (Float.Model.pack (.finite s m e hm)).unpack = _
    rw [unpack_pack_finite s hcanonical hm]
    rfl
  · have hfew : m % 2 ^ (-e).toNat < 2 ^ 53 := (Nat.mod_le ..).trans_lt hlt
    have hlog := log2_le_of_lt_two_pow hfew
    have htop := hcanonical.exponent_le
    have hvalue := valueOf?_pack_normalize (t := 0) s hfew (by simpa using hcanonical.le_exponent)
      (by omega)
    rw [Nat.pow_zero, Nat.mul_one, Int.natCast_zero, Int.add_zero] at hvalue
    rw [sub_truncated hcanonical hn, hvalue]

/-- A mantissa that ends in zeros is cast to its value. -/
lemma cast_roundToInt (s : Sign) (hzeros : m % 2 ^ (-e).toNat = 0) :
    (roundToInt s m e : ℚ) = (s.apply m : ℤ) * 2 ^ e := by
  obtain ⟨n, rfl⟩ := Nat.dvd_of_mod_eq_zero hzeros
  have hshift : ((0 : Int) - (e - (e - 0).toNat)).toNat = (-e).toNat := by omega
  have hmantissa : (2 ^ (-e).toNat * n) <<< (e - 0).toNat = n * 2 ^ e.toNat * 2 ^ (-e).toNat := by
    rw [Nat.shiftLeft_eq, Int.sub_zero, Nat.mul_comm (2 ^ _) n, Nat.mul_right_comm]
  have hround : roundToInt s (2 ^ (-e).toNat * n) e = s.apply (n * 2 ^ e.toNat : Nat) := by
    show s.apply ((⟨(2 ^ (-e).toNat * n) <<< (e - 0).toNat, false, false⟩ : ExtendedMantissa) >>>
      ((0 : Int) - (e - (e - 0).toNat)).toNat).mantissa = _
    rw [hshift, hmantissa, shiftRight_mul_two_pow]
  have hpow : (2 : ℚ) ^ (-e).toNat * 2 ^ e = 2 ^ e.toNat := by
    rw [← zpow_natCast, ← zpow_natCast, ← zpow_add₀ (by norm_num)]
    congr 1
    omega
  rw [hround, Nat.mul_comm (2 ^ _) n, apply_natCast_mul, apply_natCast_mul]
  push_cast
  rw [mul_assoc, hpow]

/-- The mantissa of an integer ends in zeros. -/
lemma mod_eq_zero_of_eq_int {z : ℤ} (h : ((s.apply m : ℤ) : ℚ) * 2 ^ e = z) :
    m % 2 ^ (-e).toNat = 0 := by
  by_cases he : 0 ≤ e
  · rw [show (-e).toNat = 0 by omega, Nat.pow_zero, Nat.mod_one]
  have hpow : (2 : ℚ) ^ e * 2 ^ (-e).toNat = 1 := by
    rw [← zpow_natCast, ← zpow_add₀ (by norm_num), show e + (-e).toNat = 0 by omega, zpow_zero]
  have hscaled : s.apply m = z * 2 ^ (-e).toNat := by
    have : ((s.apply m : ℤ) : ℚ) = z * 2 ^ (-e).toNat := by rw [← h, mul_assoc, hpow, mul_one]
    exact_mod_cast this
  have hmagnitude : m = z.natAbs * 2 ^ (-e).toNat := by
    have habs : (s.apply m).natAbs = m := by cases s <;> simp [Sign.apply]
    rw [← habs, hscaled, Int.natAbs_mul, Int.natAbs_pow]
    rfl
  rw [hmagnitude, Nat.mul_mod_left]

end Fraction

/-- A double has no fractional part if its value is an integer.

**Proof sketch.** The fractional part is what is left when the truncated double is subtracted.
Infinities and *not a number* leave no zero, and have no integer as their value; a zero leaves zero.
For a finite double what is left are the bits behind the point, which are zero exactly if the
mantissa under its exponent is an integer. -/
theorem fract_beq_zero_iff (x : Float) :
    fract x == 0.0 ↔ ∃ z : ℤ, value? x.toBits = some (ofRat z) := by
  have hzero : value? (0.0 : Float).toBits = some (ofRat 0) := by decide +kernel
  have hsub : (fract x == 0.0) = ((Float.Model.pack (.sub .binary64 x.toModel.unpack
    (truncated x.toModel.unpack))).unpack.compare (0.0 : Float).toModel.unpack == some .eq) := by
    rw [← unpack_trunc]
    rfl
  have hvalue : value? x.toBits = valueOf? x.toModel.unpack := rfl
  cases hu : x.toModel.unpack with
  | infinity s =>
    rw [hsub, hvalue, hu]
    refine iff_of_false (by cases s <;> decide) fun ⟨z, hz⟩ => ?_
    rcases eq_zero_or_finite_of_valueOf? hz with ⟨_, h, -⟩ | ⟨_, _, _, _, h, -⟩ <;> cases h
  | notANumber =>
    rw [hsub, hvalue, hu]
    exact iff_of_false (by decide) nofun
  | zero s =>
    rw [hsub, hvalue, hu]
    exact iff_of_true (by cases s <;> decide) ⟨0, rfl⟩
  | finite s m e hm =>
    have hfinite : value? x.toBits = some (ofRat ((s.apply m : ℤ) * 2 ^ e)) := by rw [hvalue, hu]; rfl
    have hpow : (2 : ℚ) ^ e ≠ 0 := zpow_ne_zero e (by norm_num)
    rw [beq_iff_rat (value?_fract hu) hzero, hfinite]
    constructor
    · intro h
      have hsign := Int.cast_eq_zero.1 ((mul_eq_zero.1 h).resolve_right hpow)
      have hzeros : m % 2 ^ (-e).toNat = 0 := by
        cases s <;> simpa only [Sign.apply, Int.neg_eq_zero, Int.natCast_eq_zero] using hsign
      exact ⟨roundToInt s m e, by rw [cast_roundToInt s hzeros]⟩
    · rintro ⟨z, hz⟩
      have hint := ofRat_strictMono.injective (Option.some_inj.1 hz)
      have hempty : s.apply (0 : Nat) = 0 := by cases s <;> rfl
      rw [mod_eq_zero_of_eq_int hint, hempty, Int.cast_zero, zero_mul]

/-- A double whose value is an integer is cast to it. -/
lemma toInt_of_value? {x : Float} {z : ℤ} (h : value? x.toBits = some (ofRat z)) (lo hi : Int) :
    x.toModel.unpack.toInt lo hi = z := by
  rcases eq_zero_or_finite_of_valueOf? h with ⟨s, hu, hz⟩ | ⟨s, m, e, hm, hu, hz⟩ <;>
    change x.toModel.unpack = _ at hu <;> rw [hu]
  · exact_mod_cast hz.symm
  · have hround := cast_roundToInt s (mod_eq_zero_of_eq_int hz.symm)
    rw [← hz] at hround
    exact_mod_cast hround

/-- The cast that is tested gives the integer that is the value of the double, if there is one. -/
theorem exactCast?_eq_some_iff (x : Float) (i : Int32) :
    exactCast? x = some i ↔ value? x.toBits = some (ofRat i.toInt) := by
  have hcast {z : ℤ} (hz : value? x.toBits = some (ofRat z)) : x.toModel.toInt32 = .ofIntClamp z :=
    congrArg Int32.ofIntClamp (toInt_of_value? hz _ _)
  unfold exactCast?
  constructor
  · intro h
    split at h
    · next htest =>
      obtain ⟨hfract, hlow, hhigh⟩ := htest
      obtain ⟨z, hz⟩ := (fract_beq_zero_iff x).1 hfract
      rw [le_iff_rat (value?_ofInt32 _) hz, Int.cast_le] at hlow
      rw [le_iff_rat hz (value?_ofInt32 _), Int.cast_le] at hhigh
      rw [← Option.some_inj.1 h, hcast hz, Int32.toInt_ofIntClamp hlow hhigh, hz]
    · cases h
  · intro hz
    rw [if_pos, hcast hz, Int32.ofIntClamp_toInt]
    refine ⟨(fract_beq_zero_iff x).2 ⟨_, hz⟩, ?_, ?_⟩
    · rw [le_iff_rat (value?_ofInt32 _) hz, Int.cast_le]
      exact i.minValue_le_toInt
    · rw [le_iff_rat hz (value?_ofInt32 _), Int.cast_le]
      exact i.toInt_le

example : exactCast? (-0.0) = some 0 := by decide +kernel

example : exactCast? 2147483647.5 = none := by decide +kernel

end Binary64

end DiceCalculus
