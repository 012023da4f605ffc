import DiceCalculus.Proofs.Binary64.Integers
import DiceCalculus.Proofs.Exact

set_option autoImplicit false
set_option relaxedAutoImplicit false

/-!
# The arithmetic of doubles respects equality

Two doubles that compare equal are the same, or they are the two zeros. The sign of a zero decides the
sign of a zero that is computed from it, and nothing else unless it is divided by. An integer and the
double of its value are operands of the same result, since an operation on doubles is exact where one
on integers is.

## Main results

* `Binary64.toNat_pack_finite`, `Binary64.unpack_pack_finite` — a mantissa and an exponent of a double are
  packed to its pattern, and unpacked from it.
* `Binary64.pack_unpackedInt`, `Binary64.unpack_ofInt32` — an integer of 32 bits is packed to its
  pattern, and unpacked from it.
* `Binary64.agree_of_cmp`, `Binary64.cmp_of_agree` — doubles compare equal if they are the same up to
  the sign of a zero.
* `Number.compare_promote` — what arithmetic with promotion needs to respect equality.
* `Scalar.isCongruent_double` — operands that compare equal give results that compare equal.
-/

namespace DiceCalculus

namespace Binary64

open Float.Model Float.Model.UnpackedFloat

/-! ## Patterns -/

/-- A pattern that is put together from its parts has them side by side. -/
lemma toNat_packComponents (s : Sign) (e : BitVec 11) (m : BitVec 52) :
    (packComponents .binary64 s e m).toNat =
      s.toBitVec.toNat * 2 ^ 63 + e.toNat * 2 ^ 52 + m.toNat := by
  show (s.toBitVec ++ e ++ m).toNat = _
  rw [BitVec.toNat_append, BitVec.toNat_append, ← Nat.shiftLeft_add_eq_or_of_lt e.isLt,
    ← Nat.shiftLeft_add_eq_or_of_lt m.isLt, Nat.shiftLeft_eq, Nat.shiftLeft_eq]
  omega

/-- The sign of a pattern that is put together from its parts. -/
lemma unpackSign_packComponents (s : Sign) (e : BitVec 11) (m : BitVec 52) :
    unpackSign (packComponents .binary64 s e m) = s.toBitVec := by
  have hs := s.toBitVec.isLt
  have he := e.isLt
  have hm := m.isLt
  apply BitVec.eq_of_toNat_eq
  simp only [unpackSign, BitVec.toNat_cast, BitVec.extractLsb_toNat, toNat_packComponents]
  show (s.toBitVec.toNat * 2 ^ 63 + e.toNat * 2 ^ 52 + m.toNat) >>> 63 % 2 = s.toBitVec.toNat
  omega

/-- The leading bit of a mantissa is hidden. -/
lemma toNat_hidden (m : BitVec 52) : (1#1 ++ m).toNat = 2 ^ 52 + m.toNat := by
  rw [BitVec.toNat_append, ← Nat.shiftLeft_add_eq_or_of_lt m.isLt]
  rfl

section Pack

variable {m : Nat} {e : Int}

/-- The parts of the pattern of a mantissa and an exponent: the leading bit, if there is one, is hidden,
and without it the field of the exponent is zero. -/
lemma pack_finite (s : Sign) (h : IsCanonical m e) (hm : 0 < m) :
    UnpackedFloat.pack .binary64 (.finite s m e hm) =
      packComponents .binary64 s (if 2 ^ 52 ≤ m then .ofNat 11 (e + 1075).toNat else 0#11)
        (.ofNat 52 m) := by
  have hlog : m.log2 + 1 = 53 ↔ 2 ^ 52 ≤ m := by
    have hle := log2_le_of_lt_two_pow h.lt
    rw [← Nat.le_log2 (Nat.ne_of_gt hm)]
    omega
  have hbias : (Format.binary64.exponentBias : Int) = 1023 := by decide
  have hbits : Format.binary64.mantissaBits = 53 := by decide
  have hexponent : e + 1023 + (52 : Nat) = e + 1075 := by omega
  have htop := h.exponent_le
  unfold UnpackedFloat.pack
  simp only [hbias, hbits, hexponent, hlog]
  rw [if_neg (by omega)]
  split
  · rfl
  · rfl

/-- The pattern of a mantissa and an exponent counts the doubles from zero. -/
theorem toNat_pack_finite (s : Sign) (h : IsCanonical m e) (hm : 0 < m) :
    (UnpackedFloat.pack .binary64 (.finite s m e hm)).toNat =
      s.toBitVec.toNat * 2 ^ 63 + ((e + 1074).toNat * 2 ^ 52 + m) := by
  have hlt := h.lt
  have hlow := h.le_exponent
  have htop := h.exponent_le
  rw [pack_finite s h hm, toNat_packComponents, BitVec.toNat_ofNat]
  split
  · rw [BitVec.toNat_ofNat]
    omega
  · rw [BitVec.toNat_ofNat]
    rcases h.normal with hsmall | hbit <;> omega

/-- A mantissa and an exponent of a double are unpacked from its pattern.

**Proof sketch.** The fields of the pattern are read back one by one. A mantissa with its hidden bit
has a biased exponent strictly between the two special ones, and the bit is put back when it is
unpacked. Without the hidden bit the exponent is the smallest one, its field is zero, and the
mantissa is the fraction, which is not zero. -/
theorem unpack_pack_finite (s : Sign) (h : IsCanonical m e) (hm : 0 < m) :
    (Float.Model.pack (.finite s m e hm)).unpack = .finite s m e hm := by
  have hsign : Sign.ofBitVec s.toBitVec = s := by cases s <;> rfl
  have hbias : (Format.binary64.exponentBias : Int) = 1023 := by decide
  have hlt := h.lt
  have hlow := h.le_exponent
  have htop := h.exponent_le
  show UnpackedFloat.unpack .binary64 (UnpackedFloat.pack .binary64 (.finite s m e hm)) = _
  rw [pack_finite s h hm]
  unfold UnpackedFloat.unpack
  simp only [unpackExponent_packComponents, unpackMantissa_packComponents,
    unpackSign_packComponents, hsign, hbias]
  by_cases hbit : 2 ^ 52 ≤ m
  · have hexponent : (BitVec.ofNat 11 (e + 1075).toNat).toNat = (e + 1075).toNat := by
      rw [BitVec.toNat_ofNat]
      omega
    have hfinite : BitVec.ofNat 11 (e + 1075).toNat ≠ -1#11 := fun heq => by
      have heq := congrArg BitVec.toNat heq
      rw [hexponent] at heq
      change (e + 1075).toNat = 2047 at heq
      omega
    have hnormal : BitVec.ofNat 11 (e + 1075).toNat ≠ 0#11 := fun heq => by
      have heq := congrArg BitVec.toNat heq
      rw [hexponent] at heq
      change (e + 1075).toNat = 0 at heq
      omega
    have hmantissa : (1#1 ++ BitVec.ofNat 52 m).toNat = m := by
      rw [toNat_hidden, BitVec.toNat_ofNat]
      omega
    have hvalue : ((e + 1075).toNat : Int) - (1023 + (52 : Nat)) = e := by omega
    simp only [hbit, if_true, hfinite, hnormal, if_false, hmantissa, hexponent, hvalue]
  · have hsmall : e = -1074 := h.normal.resolve_right hbit
    have hmantissa : (BitVec.ofNat 52 m).toNat = m := by
      rw [BitVec.toNat_ofNat]
      omega
    have hnonzero : BitVec.ofNat 52 m ≠ 0#52 := fun heq => by
      have heq := congrArg BitVec.toNat heq
      rw [hmantissa] at heq
      change m = 0 at heq
      omega
    subst hsmall
    rw [if_neg hbit, if_neg (by decide), if_pos rfl, dif_neg hnonzero]
    simp only [hmantissa]
    rfl

end Pack

variable {n : Nat}

/-- The mantissa and the exponent of a natural number are those of a double. -/
lemma isCanonical_nat (hn : n ≠ 0) (hlt : n < 2 ^ 53) :
    IsCanonical (n * 2 ^ (52 - n.log2)) (n.log2 - 52) := by
  have hbounds := shifted_bounds hn (log2_le_of_lt_two_pow hlt)
  have hlog := log2_le_of_lt_two_pow hlt
  rw [Nat.shiftLeft_eq n, Nat.one_shiftLeft, Nat.one_shiftLeft] at hbounds
  exact ⟨hbounds.2, by omega, by omega, .inr hbounds.1⟩

/-- A natural number under a sign is unpacked from its pattern. -/
lemma unpack_pack_unpackedNat (s : Sign) (hlt : n < 2 ^ 53) :
    (Float.Model.pack (unpackedNat s n)).unpack = unpackedNat s n := by
  by_cases hn : n = 0
  · subst hn
    cases s <;> rfl
  rw [unpackedNat_of_ne_zero s hn]
  exact unpack_pack_finite s (isCanonical_nat hn hlt) _

/-- A natural number of 32 bits is packed to its pattern. -/
lemma toNat_pack_unpackedNat (s : Sign) (hlt : n < UInt32.size) :
    (UnpackedFloat.pack .binary64 (unpackedNat s n)).toNat =
      s.toBitVec.toNat * 2 ^ 63 + magnitude n := by
  by_cases hn : n = 0
  · subst hn
    cases s <;> rfl
  have hlog := log2_le_of_lt hlt
  have hexponent : ((n.log2 : Int) - 52 + 1074).toNat = n.log2 + 1022 := by omega
  rw [unpackedNat_of_ne_zero s hn,
    toNat_pack_finite s (isCanonical_nat hn (Nat.lt_trans hlt (by decide))), hexponent, magnitude,
    if_neg hn, Nat.shiftLeft_eq, Nat.shiftLeft_eq]

/-- An integer of 32 bits is packed to its pattern. -/
theorem pack_unpackedInt (i : Int32) : ofInt32 i = .ofModel (.pack (unpackedInt i.toInt)) := by
  have hbits := toNat_pack_unpackedNat (signOf i.toInt) (natAbs_toInt_lt i)
  have hpattern : (UnpackedFloat.pack .binary64 (unpackedInt i.toInt)).toNat = bitsOfInt32 i := by
    refine hbits.trans ?_
    unfold bitsOfInt32 signOf
    split
    · exact Nat.zero_add _
    · rfl
  unfold ofInt32 Float.Model.pack
  congr 2
  rw [← UInt64.toNat_inj, UInt64.toNat_ofNat', Nat.mod_eq_of_lt (bitsOfInt32_lt i), ← hpattern]
  rfl

/-- An integer of 32 bits is below `2 ^ 53`. -/
lemma natAbs_toInt_lt_two_pow (i : Int32) : i.toInt.natAbs < 2 ^ 53 :=
  Nat.lt_trans (natAbs_toInt_lt i) (by decide)

/-- An integer of 32 bits is unpacked from its pattern. -/
theorem unpack_ofInt32 (i : Int32) : (ofInt32 i).toModel.unpack = unpackedInt i.toInt := by
  rw [pack_unpackedInt]
  exact unpack_pack_unpackedNat _ (natAbs_toInt_lt_two_pow i)

/-! ## Doubles that compare equal -/

/-- A double is known by its pattern. -/
lemma eq_of_toBits {x y : Float} (h : x.toBits.toNat = y.toBits.toNat) : x = y := by
  obtain ⟨⟨b, hb⟩⟩ := x
  obtain ⟨⟨c, hc⟩⟩ := y
  obtain rfl : b = c := UInt64.toNat_inj.1 h
  rfl

/-- Two doubles that compare equal are the same or are two zeros. -/
lemma eq_or_zero_of_cmp {x y : Float} (h : cmp x y = .eq) :
    x = y ∨ ∃ s s', x = .ofModel (.pack (.zero s)) ∧ y = .ofModel (.pack (.zero s')) := by
  have hzero : (Float.ofModel (.pack (.zero .positive))).toBits.toNat = 0 := rfl
  have hminus : (Float.ofModel (.pack (.zero .negative))).toBits.toNat = 1 <<< 63 := rfl
  rw [cmp_eq_iff, toNat_orderKey, toNat_orderKey] at h
  have hx : x.toBits.toNat < 1 <<< 64 := UInt64.toNat_lt_size _
  have hy : y.toBits.toNat < 1 <<< 64 := UInt64.toNat_lt_size _
  split at h <;> split at h
  · exact .inl (eq_of_toBits (by omega))
  · exact .inr ⟨.positive, .negative, eq_of_toBits (by omega), eq_of_toBits (by omega)⟩
  · exact .inr ⟨.negative, .positive, eq_of_toBits (by omega), eq_of_toBits (by omega)⟩
  · exact .inl (eq_of_toBits (by omega))

/-- Zeros compare equal. -/
lemma cmp_zero (s s' : Sign) :
    cmp (.ofModel (.pack (.zero s))) (.ofModel (.pack (.zero s'))) = .eq := by
  cases s <;> cases s' <;> decide +kernel

/-- Doubles that compare equal are the same up to the sign of a zero. -/
theorem agree_of_cmp {x y : Float} (h : cmp x y = .eq) : Agree x.toModel.unpack y.toModel.unpack := by
  rcases eq_or_zero_of_cmp h with rfl | ⟨s, s', rfl, rfl⟩
  · exact .inl rfl
  · exact .inr ⟨s, s', unpack_pack_unpackedNat s (n := 0) (by decide),
      unpack_pack_unpackedNat s' (n := 0) (by decide)⟩

/-- What is the same up to the sign of a zero is packed to doubles that compare equal. -/
theorem cmp_of_agree {u v : UnpackedFloat} (h : Agree u v) :
    cmp (.ofModel (.pack u)) (.ofModel (.pack v)) = .eq := by
  have := transCmp_cmp
  rcases h with rfl | ⟨s, s', rfl, rfl⟩
  · exact Std.ReflCmp.compare_self
  · exact cmp_zero s s'

/-- Two doubles that compare equal are the same unless they are zero. -/
lemma eq_of_cmp_of_ne_zero {x y : Float} (h : cmp x y = .eq) (hy : cmp y (ofInt32 0) ≠ .eq) :
    x = y := by
  rcases eq_or_zero_of_cmp h with h | ⟨s, s', rfl, rfl⟩
  · exact h
  · exact absurd (cmp_zero s' .positive) hy

/-! ## Operations -/

/-- An operation that makes of the two zeros the same up to the sign of a zero respects this sameness
in both operands. -/
lemma Agree.map₂ {f : UnpackedFloat → UnpackedFloat → UnpackedFloat}
    (hleft : ∀ s s' v, Agree (f (.zero s) v) (f (.zero s') v))
    (hright : ∀ u s s', Agree (f u (.zero s)) (f u (.zero s'))) {u u' v v' : UnpackedFloat}
    (hu : Agree u u') (hv : Agree v v') : Agree (f u v) (f u' v') := by
  have htrans {u v w : UnpackedFloat} (h : Agree u v) (h' : Agree v w) : Agree u w := by
    rcases h with rfl | ⟨s, s', rfl, rfl⟩
    · exact h'
    · rcases h' with rfl | ⟨_, s'', _, rfl⟩
      · exact .inr ⟨s, s', rfl, rfl⟩
      · exact .inr ⟨s, s'', rfl, rfl⟩
  refine htrans (v := f u' v) ?_ ?_
  · rcases hu with rfl | ⟨s, s', rfl, rfl⟩
    · exact .inl rfl
    · exact hleft s s' v
  · rcases hv with rfl | ⟨s, s', rfl, rfl⟩
    · exact .inl rfl
    · exact hright u' s s'

/-- A zero of either sign, as a choice between two zeros. -/
lemma agree_ite (p p' : Bool) (s s' t t' : Sign) :
    Agree (if p then .zero s else .zero t) (if p' then .zero s' else .zero t') := by
  cases p <;> cases p' <;> exact .inr ⟨_, _, rfl, rfl⟩

variable {x x' y y' : Float} (hx : cmp x x' = .eq)

include hx

/-- Sums of doubles that compare equal. -/
lemma cmp_add (hy : cmp y y' = .eq) : cmp (x + y) (x' + y') = .eq := by
  refine cmp_of_agree (Agree.map₂ (fun s s' v => ?_) (fun u s s' => ?_) (agree_of_cmp hx)
    (agree_of_cmp hy))
  · cases v with
    | zero t => exact agree_ite (s == t) (s' == t) s s' .positive .positive
    | _ => exact .inl rfl
  · cases u with
    | zero t => exact agree_ite (t == s) (t == s') t t .positive .positive
    | _ => exact .inl rfl

/-- Differences of doubles that compare equal. -/
lemma cmp_sub (hy : cmp y y' = .eq) : cmp (x - y) (x' - y') = .eq := by
  refine cmp_of_agree (Agree.map₂ (fun s s' v => ?_) (fun u s s' => ?_) (agree_of_cmp hx)
    (agree_of_cmp hy))
  · cases v with
    | zero t => exact agree_ite (s == -t) (s' == -t) s s' .positive .positive
    | _ => exact .inl rfl
  · cases u with
    | zero t => exact agree_ite (t == -s) (t == -s') t t .positive .positive
    | _ => exact .inl rfl

/-- Products of doubles that compare equal. -/
lemma cmp_mul (hy : cmp y y' = .eq) : cmp (x * y) (x' * y') = .eq := by
  refine cmp_of_agree (Agree.map₂ (fun s s' v => ?_) (fun u s s' => ?_) (agree_of_cmp hx)
    (agree_of_cmp hy))
  · cases v with
    | zero t | finite t => exact .inr ⟨_, _, rfl, rfl⟩
    | _ => exact .inl rfl
  · cases u with
    | zero t | finite t => exact .inr ⟨_, _, rfl, rfl⟩
    | _ => exact .inl rfl

/-- Quotients of doubles that compare equal by the same double. -/
lemma cmp_div (y : Float) : cmp (x / y) (x' / y) = .eq := by
  refine cmp_of_agree ?_
  rcases agree_of_cmp hx with h | ⟨s, s', h, h'⟩
  · rw [h]
    exact .inl rfl
  · rw [h, h']
    cases y.toModel.unpack with
    | infinity t | finite t => exact .inr ⟨_, _, rfl, rfl⟩
    | _ => exact .inl rfl

omit hx

/-- An operation that is exact on integers gives the double of its value at the doubles of theirs. -/
lemma cmp_ofInt32_of_agree {f : UnpackedFloat → UnpackedFloat → UnpackedFloat} {i j k : Int32}
    (h : Agree (f (unpackedInt i.toInt) (unpackedInt j.toInt)) (unpackedInt k.toInt)) :
    cmp (ofInt32 k) (.ofModel (.pack (f (ofInt32 i).toModel.unpack (ofInt32 j).toModel.unpack))) =
      .eq := by
  have := transCmp_cmp
  rw [unpack_ofInt32, unpack_ofInt32, pack_unpackedInt k]
  exact Std.OrientedCmp.eq_symm (cmp_of_agree h)

end Binary64

/-! ## Numbers -/

/-- Arithmetic with promotion respects equality if that of the reals does and is exact where the result
is an integer. -/
theorem Number.compare_promote {ρ : Type} [Scalar ρ] {exact : Int → Int → Int}
    {approximate : ρ → ρ → ρ}
    (hexact : ∀ i j k : Int32, k.toInt = exact i.toInt j.toInt →
      Scalar.cmp (Scalar.ofInt32 k) (approximate (Scalar.ofInt32 i) (Scalar.ofInt32 j)) = .eq)
    (hcongr : ∀ a a' b b', Scalar.cmp a a' = .eq → Scalar.cmp b b' = .eq →
      Scalar.cmp (approximate a b) (approximate a' b') = .eq)
    {x x' y y' : Number ρ} (hx : compare x x' = .eq) (hy : compare y y' = .eq) :
    compare (promote exact approximate x y) (promote exact approximate x' y') = .eq := by
  have := Scalar.transCmp (ρ := ρ)
  have hpromote (x y : Number ρ) :
      Scalar.cmp (promote exact approximate x y).toReal (approximate x.toReal y.toReal) = .eq := by
    unfold promote
    split
    · next i j =>
      split
      · next k hk => exact hexact i j k (Int32.ofInt?_eq_some_iff.1 hk)
      · exact Std.ReflCmp.compare_self
    · exact Std.ReflCmp.compare_self
  rw [compare_eq_cmp] at hx hy ⊢
  exact Std.TransCmp.eq_trans (hpromote x y)
    (Std.TransCmp.eq_trans (hcongr _ _ _ _ hx hy) (Std.OrientedCmp.eq_symm (hpromote x' y')))

/-- In the arithmetic of doubles, operands that compare equal give results that compare equal.

**Proof sketch.** Comparisons are congruent whatever the reals are. Sums, differences and products of
doubles that compare equal do so as well. Where one pair of operands is integers and the other is
not, the result in integers is one of 32 bits, and the doubles of the operands come to its double.
In a quotient, divisors that compare equal are the same double unless they are zeros, and these are
refused. -/
theorem Scalar.isCongruent_double : Scalar.IsCongruent Float := by
  intro op
  by_cases hop : op.isComparison = true
  · exact Operator.isCongruent_of_isComparison hop
  intro x x' y y' hx hy
  have hlt := Binary64.natAbs_toInt_lt_two_pow
  cases op with
  | add =>
    refine .some (Number.compare_promote (fun i j k hk => ?_) (fun _ _ _ _ => Binary64.cmp_add) hx hy)
    have hsum := Binary64.add_int (hlt i) (hlt j) (hk ▸ hlt k)
    exact Binary64.cmp_ofInt32_of_agree (.inl (hk ▸ hsum))
  | sub =>
    refine .some (Number.compare_promote (fun i j k hk => ?_) (fun _ _ _ _ => Binary64.cmp_sub) hx hy)
    have hdiff := Binary64.sub_int (hlt i) (hlt j) (hk ▸ hlt k)
    exact Binary64.cmp_ofInt32_of_agree (.inl (hk ▸ hdiff))
  | mul =>
    refine .some (Number.compare_promote (fun i j k hk => ?_) (fun _ _ _ _ => Binary64.cmp_mul) hx hy)
    have hprod := Binary64.agree_mul_int (hlt i) (hlt j) (hk ▸ hlt k)
    exact Binary64.cmp_ofInt32_of_agree (hk ▸ hprod)
  | div =>
    simp only [Operator.value?, Number.isZero_congr hy]
    split
    · exact .none
    · next hzero =>
      refine .some ?_
      rw [Number.compare_eq_cmp] at hx hy
      have hsame := Binary64.eq_of_cmp_of_ne_zero hy fun h => hzero ?_
      · show Binary64.cmp (x.toReal / y.toReal) (x'.toReal / y'.toReal) = .eq
        rw [hsame]
        exact Binary64.cmp_div hx _
      · rw [Number.isZero_iff, Number.compare_eq_cmp]
        exact h
  | _ => exact absurd rfl hop

end DiceCalculus
