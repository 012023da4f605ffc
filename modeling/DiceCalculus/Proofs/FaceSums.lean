import DiceCalculus.Proofs.Binary64.Sums
import DiceCalculus.Proofs.Law.Integers
import DiceCalculus.Proofs.Law.Keys
import DiceCalculus.Proofs.Order
import DiceCalculus.Proofs.Run.Faces
import DiceCalculus.Roller

set_option autoImplicit false
set_option relaxedAutoImplicit false

/-!
# Sums of faces

A sum of faces starts as an integer of 32 bits, and from the first partial sum on that is too great
for one it is a double. Nothing is lost by this as long as the total does not exceed `2 ^ 53`. Both
ways to add faces, one roll after the other and one law after the other, come to the same numbers.

## Main definitions

* `Number.ofTotal` — the number as which a total of faces is written.
* `Number.IsTotal` — a number that has the value of a total, in the form that this calls for.
* `Dice.total`, `Dice.sampledSum` — the total of a list of faces, and their sum as numbers.
* `Law.IsOfTotals` — a law whose outcomes are the totals between two bounds.

## Main results

* `Number.ofTotal_add_ofTotal` — totals are added exactly, whichever forms they have.
* `Dice.sampledSum_eq` — the sum of a list of faces.
* `Dice.isOfTotals_of_sumLaw` — the outcomes of a number of dice.
* `face_sums_are_exact` — both of these, and the rolls of a session.
-/

namespace DiceCalculus

open Outcome

/-! ## Totals as numbers -/

namespace Number

/-- The number as which a total of faces is written: an integer if 32 bits hold it, and a double if
not. -/
def ofTotal (n : Nat) : Number Float :=
  if n < 2 ^ 31 then .int (.ofNat n) else .real (Binary64.ofNat n)

/-- A number has the value of a total, and is written as an integer as long as 32 bits hold it. -/
structure IsTotal (n : Nat) (x : Number Float) : Prop where
  /-- The exact value. -/
  value : x.exactValue? = some (Binary64.ofRat n)
  /-- The form of a small total. -/
  int : n < 2 ^ 31 → ∃ i : Int32, x = .int i ∧ i.toInt = n
  /-- The form of a great total. -/
  real : 2 ^ 31 ≤ n → ∃ y, x = .real y

variable {m n : Nat}

/-- A total that 32 bits hold. -/
lemma ofTotal_of_lt (hlt : n < 2 ^ 31) : ofTotal n = .int (.ofNat n) := if_pos hlt

/-- A total that 32 bits do not hold. -/
lemma ofTotal_of_le (hle : 2 ^ 31 ≤ n) : ofTotal n = .real (Binary64.ofNat n) :=
  if_neg (Nat.not_lt.2 hle)

/-- A total up to `2 ^ 53` is written as a number of its value. -/
lemma isTotal_ofTotal (hle : n ≤ 2 ^ 53) : (ofTotal n).IsTotal n := by
  rcases Nat.lt_or_ge n (2 ^ 31) with hlt | hge
  · have hint : (Int32.ofNat n).toInt = n := Int32.toInt_ofNat_of_lt hlt
    rw [ofTotal_of_lt hlt]
    refine ⟨?_, fun _ => ⟨_, rfl, hint⟩, fun h => absurd hlt (Nat.not_lt.2 h)⟩
    rw [exactValue?, hint, Int.cast_natCast]
  · rw [ofTotal_of_le hge]
    exact ⟨Binary64.value?_ofNat hle, fun h => absurd h (Nat.not_lt.2 hge), fun _ => ⟨_, rfl⟩⟩

/-- Totals that are equal as numbers are the same. -/
lemma eq_of_compare_ofTotal (hm : m ≤ 2 ^ 53) (hn : n ≤ 2 ^ 53)
    (h : compare (ofTotal m) (ofTotal n) = .eq) : m = n := by
  rw [compare_eq_compare_exactValue (isTotal_ofTotal hm).value (isTotal_ofTotal hn).value,
    compare_eq_iff_eq, Binary64.ofRat_strictMono.injective.eq_iff, Nat.cast_inj] at h
  exact h

/-- As a double, a total has one form. -/
lemma toReal_ofTotal (n : Nat) : (ofTotal n).toReal = Binary64.ofNat n := by
  rcases Nat.lt_or_ge n (2 ^ 31) with hlt | hge
  · rw [ofTotal_of_lt hlt]
    exact Binary64.ofInt32_eq_ofNat (Int32.toInt_ofNat_of_lt hlt)
  · rw [ofTotal_of_le hge]
    rfl

/-- A total that is written as an integer is this integer. -/
lemma toInt_of_ofTotal_eq {i : Int32} (h : ofTotal n = .int i) : i.toInt = n := by
  rcases Nat.lt_or_ge n (2 ^ 31) with hlt | hge
  · rw [ofTotal_of_lt hlt] at h
    rw [← int.inj h, Int32.toInt_ofNat_of_lt hlt]
  · rw [ofTotal_of_le hge] at h
    cases h

/-- Two integers whose sum is too great for 32 bits are added as doubles, and so are all numbers of
which one is a double. -/
lemma add_eq_real {x y : Number Float}
    (h : ∀ i j : Int32, x = .int i → y = .int j → 2 ^ 31 ≤ i.toInt + j.toInt) :
    x + y = .real (x.toReal + y.toReal) := by
  show Number.add x y = _
  unfold Number.add promote
  split
  · next i j =>
    have hnone : Int32.ofInt? (i.toInt + j.toInt) = none :=
      Option.eq_none_iff_forall_ne_some.2 fun k hk => by
        have hlt := k.toInt_lt
        have hle := h i j rfl rfl
        rw [Int32.ofInt?_eq_some_iff] at hk
        omega
    rw [hnone]
    rfl
  · rfl

/-- Totals are added exactly, whichever forms they have, as long as the sum does not exceed
`2 ^ 53`. -/
theorem ofTotal_add_ofTotal (hle : m + n ≤ 2 ^ 53) (hm : m < 2 ^ 53) (hn : n < 2 ^ 53) :
    ofTotal m + ofTotal n = ofTotal (m + n) := by
  rcases Nat.lt_or_ge (m + n) (2 ^ 31) with hlt | hge
  · have hm : m < 2 ^ 31 := by omega
    have hn : n < 2 ^ 31 := by omega
    rw [ofTotal_of_lt hlt, ofTotal_of_lt hm, ofTotal_of_lt hn]
    refine int_add_int ?_
    rw [Int32.toInt_ofNat_of_lt hlt, Int32.toInt_ofNat_of_lt hm, Int32.toInt_ofNat_of_lt hn,
      Int.natCast_add]
  · have hgreat (i j : Int32) (hi : ofTotal m = .int i) (hj : ofTotal n = .int j) :
        2 ^ 31 ≤ i.toInt + j.toInt := by
      rw [toInt_of_ofTotal_eq hi, toInt_of_ofTotal_eq hj]
      omega
    rw [ofTotal_of_le hge, add_eq_real hgreat, toReal_ofTotal, toReal_ofTotal,
      Binary64.ofNat_add_ofNat hle hm hn]

end Number

/-! ## Lists of faces -/

namespace Dice

/-- The total of a list of faces. -/
def total (faces : List UInt32) : Nat := (faces.map UInt32.toNat).sum

/-- The sum of a list of faces as it is sampled: they are added as numbers, from the left and from
zero. -/
def sampledSum {ρ : Type} [Scalar ρ] (faces : List UInt32) : Number ρ :=
  (faces.map fun face => Number.int face.toInt32).foldl (· + ·) .zero

/-- The faces of any die whose sides fit into the integers of 32 bits. -/
def AreFaces (faces : List UInt32) : Prop := ∀ face ∈ faces, 1 ≤ face.toNat ∧ face.toNat < 2 ^ 31

instance (faces : List UInt32) : Decidable (AreFaces faces) := List.decidableBAll _ faces

variable {faces : List UInt32} {face : UInt32}

/-- A face is read as the total that it is. -/
lemma int_eq_ofTotal (hlt : face.toNat < 2 ^ 31) :
    (.int face.toInt32 : Number Float) = .ofTotal face.toNat := by
  rw [Number.ofTotal_of_lt hlt]
  exact congrArg (fun word => Number.int (UInt32.toInt32 word)) (UInt32.ofNat_toNat (x := face)).symm

/-- Faces that are added to a total give a total, as long as this does not exceed `2 ^ 53`.

**Proof sketch.** By induction over the faces, for all totals to which they are added. -/
lemma foldl_add_faces (hfaces : AreFaces faces) {m : Nat} (hle : m + total faces ≤ 2 ^ 53) :
    (faces.map fun face => Number.int face.toInt32).foldl (· + ·) (Number.ofTotal m) =
      .ofTotal (m + total faces) := by
  induction faces generalizing m with
  | nil => rfl
  | cons face faces ih =>
    obtain ⟨⟨hpos, hlt⟩, hfaces⟩ := List.forall_mem_cons.1 hfaces
    have htotal : total (face :: faces) = face.toNat + total faces := List.sum_cons
    rw [htotal] at hle ⊢
    rw [List.map_cons, List.foldl_cons, int_eq_ofTotal hlt,
      Number.ofTotal_add_ofTotal (by omega) (by omega) (by omega), ih hfaces (by omega),
      Nat.add_assoc]

/-- The sum of a list of faces is their total, as long as this does not exceed `2 ^ 53`. -/
theorem sampledSum_eq (hfaces : AreFaces faces) (hle : total faces ≤ 2 ^ 53) :
    sampledSum faces = .ofTotal (total faces) := by
  have hsum := foldl_add_faces hfaces (m := 0) (by omega)
  rwa [Nat.zero_add] at hsum

example : Dice.sampledSum [2147483647, 1] = .real (2147483648.0 : Float) := by decide +kernel

/-- The sum of a list of faces has the value of their total, as long as this does not exceed
`2 ^ 53`. -/
lemma isTotal_sampledSum (hfaces : AreFaces faces) (hle : total faces ≤ 2 ^ 53) :
    (sampledSum faces : Number Float).IsTotal (total faces) :=
  sampledSum_eq hfaces hle ▸ Number.isTotal_ofTotal hle

/-- Fewer faces are faces again. -/
lemma AreFaces.of_prefix {p : List UInt32} (hfaces : AreFaces faces) (h : p <+: faces) :
    AreFaces p :=
  fun face hface => hfaces face (h.subset hface)

/-- Fewer faces have no greater total. -/
lemma total_le_of_prefix {p : List UInt32} (h : p <+: faces) : total p ≤ total faces := by
  obtain ⟨rest, rfl⟩ := h
  unfold total
  rw [List.map_append, List.sum_append]
  exact Nat.le_add_right _ _

/-- A list of faces has a total between their number and that of greatest faces. -/
lemma total_bounds {count sides : Nat} (hsides : sides < 2 ^ 31) (h : IsRoll count sides faces) :
    count ≤ total faces ∧ total faces ≤ count * sides := by
  obtain ⟨rfl, hfaces⟩ := (isRoll_iff (hsides.trans (by decide)) faces).1 h
  have hlo := List.card_nsmul_le_sum (faces.map UInt32.toNat) 1
    (List.forall_mem_map.2 fun face hface => (hfaces face hface).1)
  have hhi := List.sum_le_card_nsmul (faces.map UInt32.toNat) sides
    (List.forall_mem_map.2 fun face hface => (hfaces face hface).2)
  rw [List.length_map, Nat.nsmul_eq_mul] at hlo hhi
  exact ⟨(Nat.mul_one _).symm.trans_le hlo, hhi⟩

/-- The faces of a roll are faces. -/
lemma areFaces_of_isRoll {count sides : Nat} (hsides : sides < 2 ^ 31)
    (h : IsRoll count sides faces) : AreFaces faces := fun face hface =>
  have hbounds := ((isRoll_iff (hsides.trans (by decide)) faces).1 h).2 face hface
  ⟨hbounds.1, hbounds.2.trans_lt hsides⟩

end Dice

/-! ## Laws of totals -/

namespace Law

variable {μ : Type} [Mass μ] {limits : Limits μ} {l l' d : Law Float μ} {lo hi lo' hi' : Nat}

/-- The outcomes of a law are the totals between two bounds. -/
def IsOfTotals (lo hi : Nat) (l : Law Float μ) : Prop :=
  ∀ o, o ∈ l.keys ↔ ∃ n, lo ≤ n ∧ n ≤ hi ∧ o = single (.number (.ofTotal n))

omit [Mass μ] in
/-- The law of totals is one of numbers. -/
lemma IsOfTotals.isOfNumbers (hl : l.IsOfTotals lo hi) : l.IsOfNumbers := fun e he => by
  obtain ⟨n, -, -, ho⟩ := (hl e.1).1 (List.mem_map_of_mem he)
  exact ⟨_, ⟨_, rfl⟩, ho⟩

/-- Nothing rolled is the total zero. -/
lemma isOfTotals_zero : (certain (.number .zero) : Law Float μ).IsOfTotals 0 0 := fun o => by
  rw [mem_keys_certain]
  constructor
  · rintro rfl
    exact ⟨0, le_rfl, le_rfl, rfl⟩
  · rintro ⟨n, -, hn, rfl⟩
    obtain rfl := Nat.le_zero.1 hn
    rfl

/-- The outcomes of a die are the totals of its faces. -/
lemma isOfTotals_uniform {sides : Nat} (hsides : sides < 2 ^ 31) :
    (uniform sides : Law Float μ).IsOfTotals 1 sides := fun o => by
  rw [keys_uniform hsides, List.mem_map]
  constructor
  · rintro ⟨i, hi, rfl⟩
    have hlt := List.mem_range.1 hi
    refine ⟨i + 1, by omega, by omega, ?_⟩
    rw [Number.ofTotal_of_lt (by omega)]
    rfl
  · rintro ⟨n, hlo, hhi, rfl⟩
    refine ⟨n - 1, List.mem_range.2 (by omega), ?_⟩
    rw [Nat.sub_add_cancel hlo, Number.ofTotal_of_lt (by omega)]
    rfl

/-- The outcomes of the joint law of two laws of totals are the pairs of totals. -/
lemma IsOfTotals.mem_keys_product (hl : l.IsOfTotals lo hi) (hl' : l'.IsOfTotals lo' hi')
    {p : Outcome Float} : p ∈ (l.product l').keys ↔ ∃ m n, (lo ≤ m ∧ m ≤ hi) ∧ (lo' ≤ n ∧ n ≤ hi') ∧
      p = single (.number (.ofTotal m)) ++ single (.number (.ofTotal n)) := by
  rw [Law.mem_keys_product hl.isOfNumbers]
  constructor
  · rintro ⟨q, hq, q', hq', rfl⟩
    obtain ⟨m, hlo, hhi, rfl⟩ := (hl q).1 hq
    obtain ⟨n, hlo', hhi', rfl⟩ := (hl' q').1 hq'
    exact ⟨m, n, ⟨hlo, hhi⟩, ⟨hlo', hhi'⟩, rfl⟩
  · rintro ⟨m, n, ⟨hlo, hhi⟩, ⟨hlo', hhi'⟩, rfl⟩
    exact ⟨_, (hl _).2 ⟨m, hlo, hhi, rfl⟩, _, (hl' _).2 ⟨n, hlo', hhi', rfl⟩, rfl⟩

/-- The sum of two laws of totals is a law of totals, as long as these do not exceed `2 ^ 53`.

**Proof sketch.** The keys of the sum are the values of the operation at pairs of keys. Totals up to
`2 ^ 53` are added exactly, so that these are the totals of two totals, and every total between the
bounds is one of some pair. Keys that are equal as numbers are equal, so that none is lost under
another form. -/
lemma IsOfTotals.of_operate (hl : l.IsOfTotals lo hi) (hl' : l'.IsOfTotals lo' hi') (hle : lo ≤ hi)
    (hle' : lo' ≤ hi') (hbound : hi + hi' ≤ 2 ^ 53) (hhi : hi < 2 ^ 53) (hhi' : hi' < 2 ^ 53)
    (h : operate limits .add l l' = .ok d) : d.IsOfTotals (lo + lo') (hi + hi') := by
  obtain ⟨joint, hjoint, hfold⟩ := Except.bind_eq_ok_iff.1 h
  obtain rfl := Limits.eq_product_of_ok hjoint
  have hvalue {m n : Nat} (hm : m ≤ hi) (hn : n ≤ hi') : Operator.combine (μ := μ) .add
      (single (.number (.ofTotal m)) ++ single (.number (.ofTotal n)) : Outcome Float).atoms =
        .ok (.number (.ofTotal (m + n))) :=
    combine_eq_ok_iff.2 ⟨_, _, _, rfl, congrArg some
      (Number.ofTotal_add_ofTotal (by omega) (by omega) (by omega)), rfl⟩
  have htotal {p : Outcome Float} (hp : p ∈ (l.product l').keys) {a : Atom Float}
      (ha : Operator.combine (μ := μ) .add p.atoms = .ok a) :
      ∃ n, lo + lo' ≤ n ∧ n ≤ hi + hi' ∧ a = .number (.ofTotal n) := by
    obtain ⟨m, n, hm, hn, rfl⟩ := (hl.mem_keys_product hl').1 hp
    exact ⟨m + n, by omega, by omega, Except.ok.inj (ha.symm.trans (hvalue hm.2 hn.2))⟩
  intro o
  rw [mem_keys_fold hfold fun p hp q hq a b ha hb hab => ?_]
  · constructor
    · rintro ⟨p, hp, a, ha, rfl⟩
      obtain ⟨n, hlo, hhi, rfl⟩ := htotal hp ha
      exact ⟨n, hlo, hhi, rfl⟩
    · rintro ⟨k, hlo, hhi, rfl⟩
      -- the first summand takes what the second one cannot reach
      obtain ⟨m, n, hm, hn, rfl⟩ : ∃ m n, (lo ≤ m ∧ m ≤ hi) ∧ (lo' ≤ n ∧ n ≤ hi') ∧ m + n = k :=
        ⟨max lo (k - hi'), k - max lo (k - hi'), by omega, by omega, by omega⟩
      exact ⟨_, (hl.mem_keys_product hl').2 ⟨m, n, hm, hn, rfl⟩, _, hvalue hm.2 hn.2, rfl⟩
  · -- totals that are equal as numbers are the same, and so are their forms
    obtain ⟨m, -, hm, rfl⟩ := htotal hp ha
    obtain ⟨n, -, hn, rfl⟩ := htotal hq hb
    rw [Number.eq_of_compare_ofTotal (by omega) (by omega) hab]

end Law

/-! ## Sums of dice -/

namespace Dice

variable {μ : Type} [Mass μ] {limits : Limits μ} {d : Law Float μ} {count sides : Nat}

/-- Dice that are added to a law of totals give a law of totals, as long as these do not exceed
`2 ^ 53`.

**Proof sketch.** By induction over the number of dice, for all laws to which they are added. A die
has a face at least, so that only the last sum can come up to `2 ^ 53`. -/
lemma isOfTotals_of_addDice (hpos : 0 < sides) (hsides : sides < 2 ^ 31) {sum : Law Float μ}
    {lo hi : Nat} (hsum : sum.IsOfTotals lo hi) (hle : lo ≤ hi) (hbound : hi + count * sides ≤ 2 ^ 53)
    (h : addDice limits (.uniform sides) count sum = .ok d) :
    d.IsOfTotals (lo + count) (hi + count * sides) := by
  induction count generalizing sum lo hi with
  | zero =>
    obtain rfl := Except.ok.inj h
    rwa [Nat.zero_mul]
  | succ count ih =>
    obtain ⟨next, hnext, h⟩ := Except.bind_eq_ok_iff.1 h
    rw [Nat.succ_mul] at hbound ⊢
    have hone := hsum.of_operate (Law.isOfTotals_uniform hsides) hle hpos (by omega) (by omega)
      (by omega) hnext
    have hrest := ih hone (by omega) (by omega) h
    rwa [Nat.add_assoc, Nat.add_assoc, Nat.add_comm 1, Nat.add_comm sides] at hrest

/-- The outcomes of a number of dice are the totals between all ones and all greatest faces, as long
as these do not exceed `2 ^ 53`. -/
theorem isOfTotals_of_sumLaw (hpos : 0 < sides) (hsides : sides < 2 ^ 31)
    (hbound : count * sides ≤ 2 ^ 53) (h : sumLaw limits count sides = .ok d) :
    d.IsOfTotals count (count * sides) := by
  obtain ⟨die, hdie, h⟩ := Except.bind_eq_ok_iff.1 h
  obtain rfl := Limits.eq_uniform_of_ok hdie
  have htotals := isOfTotals_of_addDice hpos hsides Law.isOfTotals_zero le_rfl (by omega) h
  rwa [Nat.zero_add, Nat.zero_add] at htotals

/-- The sum of the faces of a roll is an outcome of its dice. -/
lemma sampledSum_mem_keys (hpos : 0 < sides) (hsides : sides < 2 ^ 31)
    (hbound : count * sides ≤ 2 ^ 53) (h : sumLaw limits count sides = .ok d) {faces : List UInt32}
    (hfaces : IsRoll count sides faces) : single (.number (sampledSum faces)) ∈ d.keys := by
  obtain ⟨hlo, hhi⟩ := total_bounds hsides hfaces
  rw [sampledSum_eq (areFaces_of_isRoll hsides hfaces) (hhi.trans hbound)]
  exact (isOfTotals_of_sumLaw hpos hsides hbound h _).2 ⟨_, hlo, hhi, rfl⟩

end Dice

/-! ## Both ways to add faces -/

/-- Sums of faces are exact, whether they are sampled or tabulated.

* Faces from one to the greatest integer of 32 bits are added from the left, from the integer zero
  on. If their total does not exceed `2 ^ 53`, then every partial sum has the value of the total of
  its faces. It is an integer as long as 32 bits hold it, and a double from the first partial sum on
  that they do not.
* Dice have a number of sides that fits into the integers of 32 bits, as that of every roll does. The
  law of their sum is missing for the limit of outcomes only. If the greatest total does not exceed
  `2 ^ 53`, then its outcomes are the totals between all ones and all greatest faces, and each of them
  is written in this way. The sum of any list of faces of such dice is one of them.
* The value of a roll that is sampled is the sum of the faces that it is dealt. If they are faces of
  its dice, then it has the value of their total, and is an outcome of the law of these dice.

**Proof sketch.** A total is written in one way, and totals are added exactly, by the addition of
integers or by that of doubles (`Number.ofTotal_add_ofTotal`). Both sums are inductions over this:
that of a list of faces over the list, and that of laws over the number of dice. Since equal totals
are written in one way, no outcome of a law stands for one of another form. -/
theorem face_sums_are_exact :
    (∀ faces, Dice.AreFaces faces → Dice.total faces ≤ 2 ^ 53 →
      (∀ p, p <+: faces → (Dice.sampledSum p : Number Float).IsTotal (Dice.total p)) ∧
      ∀ p q, p <+: q → q <+: faces → 2 ^ 31 ≤ Dice.total p →
        ∃ y : Float, Dice.sampledSum q = .real y) ∧
    (∀ (μ : Type) [Mass μ] (limits : Limits μ) (count sides : Nat), 0 < sides → sides < 2 ^ 31 →
      count * sides ≤ 2 ^ 53 →
        (∀ f : Fault Float μ, Dice.sumLaw limits count sides = .error f → limits.IsExcess f) ∧
        ∀ d : Law Float μ, Dice.sumLaw limits count sides = .ok d →
          (∀ o ∈ d.keys, ∃ n x, count ≤ n ∧ n ≤ count * sides ∧ o = single (.number x) ∧
            x.IsTotal n) ∧
          (∀ n, count ≤ n → n ≤ count * sides → ∃ x, single (.number x) ∈ d.keys ∧ x.IsTotal n) ∧
          ∀ faces, IsRoll count sides faces → single (.number (Dice.sampledSum faces)) ∈ d.keys) ∧
    ∀ (μ σ : Type) [Mass μ] [Roller σ] (count sides : Meaning Float μ) (s t : Session Float μ)
      (r r' : σ),
      (∀ v, (Meaning.dice count sides).value.play s r = (.ok v, t, r') ↔ ∃ n m faces,
        Meaning.IsDealt count sides s r n m faces t r' ∧ v = .number (Dice.sampledSum faces)) ∧
      ∀ n m faces, Meaning.IsDealt count sides s r n m faces t r' → IsRoll n m faces →
        n * m ≤ 2 ^ 53 →
          (Dice.sampledSum faces : Number Float).IsTotal (Dice.total faces) ∧
          ∀ (limits : Limits μ) (d : Law Float μ), Dice.sumLaw limits n m = .ok d →
            single (.number (Dice.sampledSum faces)) ∈ d.keys := by
  refine ⟨fun faces hfaces hle => ⟨fun p hp => ?_, fun p q hp hq hgreat => ?_⟩,
    fun μ _ limits count sides hpos hsides hbound => ⟨fun f hf => ?_, fun d hd => ⟨fun o ho => ?_,
      fun n hlo hhi => ?_, fun faces => Dice.sampledSum_mem_keys hpos hsides hbound hd⟩⟩,
    fun μ σ _ _ count sides s t r r' => ⟨fun v => Meaning.play_value_dice_eq_ok_iff,
      fun n m faces hdealt hfaces hbound => ?_⟩⟩
  · exact Dice.isTotal_sampledSum (hfaces.of_prefix hp) ((Dice.total_le_of_prefix hp).trans hle)
  · have htotal := Dice.isTotal_sampledSum (hfaces.of_prefix hq)
      ((Dice.total_le_of_prefix hq).trans hle)
    exact htotal.real (hgreat.trans (Dice.total_le_of_prefix hp))
  · have hensures := Dice.ensures_sumLaw (ρ := Float) limits count sides
    rwa [hf] at hensures
  · obtain ⟨n, hlo, hhi, rfl⟩ := (Dice.isOfTotals_of_sumLaw hpos hsides hbound hd o).1 ho
    exact ⟨n, _, hlo, hhi, rfl, Number.isTotal_ofTotal (hhi.trans hbound)⟩
  · exact ⟨_, (Dice.isOfTotals_of_sumLaw hpos hsides hbound hd _).2 ⟨n, hlo, hhi, rfl⟩,
      Number.isTotal_ofTotal (hhi.trans hbound)⟩
  · obtain ⟨hpos, hsides⟩ := hdealt.sides_bounds
    obtain ⟨-, hhi⟩ := Dice.total_bounds hsides hfaces
    exact ⟨Dice.isTotal_sampledSum (Dice.areFaces_of_isRoll hsides hfaces) (hhi.trans hbound),
      fun limits d hd => Dice.sampledSum_mem_keys hpos hsides hbound hd hfaces⟩

/-- Two dice with the greatest number of sides show their greatest faces. The first partial sum is
the greatest integer of 32 bits and the second one a double, both in a session and in the law of
these dice. A total of one more than the greatest integer is an outcome of this law as well.

**Proof sketch.** The faces are a roll of two dice, which the stepper deals. Each part of the
theorem is applied to them: the partial sum, the total, its form, the value of the roll in a
session, and the outcomes of the law. -/
theorem face_sums_are_exact_of_greatest_faces :
    let faces : List UInt32 := [2147483647, 2147483647]
    let count : Meaning Float Float := .literal (.int 2)
    let sides : Meaning Float Float := .literal (.int 2147483647)
    let s : Session Float Float := .start .standard
    let r : Stepper := ⟨2147483647, 0⟩
    (Dice.sampledSum [2147483647] : Number Float).IsTotal 2147483647 ∧
    (Dice.sampledSum faces : Number Float).IsTotal 4294967294 ∧
    (∃ y : Float, Dice.sampledSum faces = .real y) ∧
    (∃ t r', (Meaning.dice count sides).value.play s r =
      (.ok (.number (.real 4294967294.0)), t, r')) ∧
    ∃ d : Law Float Float, Dice.sumLaw .unbounded 2 2147483647 = .ok d ∧
      single (.number (.real 4294967294.0)) ∈ d.keys ∧
      ∃ x, single (.number x) ∈ d.keys ∧ x.IsTotal 2147483648 := by
  intro faces count sides s r
  obtain ⟨hlists, hlaws, hsessions⟩ := face_sums_are_exact
  obtain ⟨hpartial, hdoubles⟩ := hlists faces (by decide) (by decide)
  obtain ⟨hexcess, houtcomes⟩ :=
    hlaws Float .unbounded 2 2147483647 (by decide) (by decide) (by decide)
  have hsum : Dice.sampledSum faces = .real (4294967294.0 : Float) := by decide +kernel
  have hroll : IsRoll 2 2147483647 faces := (isRoll_iff (by decide) faces).2 (by simp [faces])
  have hdealt : Meaning.IsDealt count sides s r 2 2147483647 faces
      { s with spent := s.spent + 2 } r :=
    ⟨.number (.int 2147483647), s, r, .number (.int 2), s, r, rfl, rfl, rfl, rfl, by decide, by cbv,
      rfl⟩
  obtain ⟨hvalue, hsampled⟩ := hsessions Float Stepper count sides s _ r r
  obtain ⟨htotal, hmem⟩ := hsampled 2 2147483647 faces hdealt hroll (by decide)
  refine ⟨hpartial [2147483647] ⟨[2147483647], rfl⟩, htotal,
    hdoubles faces faces List.prefix_rfl List.prefix_rfl (by decide),
    ⟨_, _, (hvalue _).2 ⟨2, 2147483647, faces, hdealt, by rw [hsum]⟩⟩, ?_⟩
  rcases hd : Dice.sumLaw .unbounded 2 2147483647 with f | d
  · obtain ⟨limit, hlimit, -⟩ := hexcess f hd
    cases hlimit
  · obtain ⟨-, hreached, -⟩ := houtcomes d hd
    exact ⟨d, rfl, hsum ▸ hmem _ d hd, hreached 2147483648 (by decide) (by decide)⟩

end DiceCalculus
