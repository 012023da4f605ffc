import DiceCalculus.Proofs.Binary64.Truncation
import DiceCalculus.Proofs.Law.Integers
import DiceCalculus.Proofs.Order
import DiceCalculus.Proofs.Run.Faces
import DiceCalculus.Roller

set_option autoImplicit false
set_option relaxedAutoImplicit false

/-!
# Casts of operands and of faces

A roll casts its operands to integers, and the faces of its dice, which are words, to integers of 32
bits. Neither cast changes a value: an operand is refused unless it equals an integer that is in
range, and a die with a number of sides that is accepted has no face that an integer of 32 bits
cannot hold.

## Main definitions

* `Number.Shows` — a number is the integer of a face.

## Main results

* `Number.toInt32?_real` — a double passes to an integer by a cast behind a test.
* `Dice.count_eq_ok_iff_beq`, `Dice.sides_eq_ok_iff_beq` — the numbers that a roll accepts.
* `Number.shows_face` — the cast of a face.
* `operands_and_faces_are_cast_exactly` — all casts of a roll.
-/

namespace DiceCalculus

variable {ρ μ : Type} [Scalar ρ]

/-! ## Operands -/

namespace Number

variable {x y : Number ρ} {i j : Int32}

/-- Numbers are equal if they compare so. -/
lemma beq_iff_compare (x y : Number ρ) : x == y ↔ compare x y = .eq :=
  beq_iff_eq (a := compare x y)

/-- A number passes to the integer that it equals, and to no other. -/
lemma toInt32?_eq_some_iff_beq : x.toInt32? = some i ↔ x == .int i := by
  rw [toInt32?_eq_some_iff, beq_iff_compare, Std.OrientedCmp.eq_comm]

/-- Numbers that pass to integers are equal if the integers are. -/
lemma beq_iff_of_toInt32? (hx : x.toInt32? = some i) (hy : y.toInt32? = some j) :
    x == y ↔ i = j := by
  rw [toInt32?_eq_some_iff] at hx hy
  rw [beq_iff_compare, ← Std.TransCmp.congr_left hx, ← Std.TransCmp.congr_right hy, ← Int32.toInt_inj]
  exact compare_eq_iff_eq (a := i.toInt)

/-- A double passes to the integer that its cast gives, behind the test that nothing is lost. -/
theorem toInt32?_real (x : Float) : (Number.real x).toInt32? = Binary64.exactCast? x := by
  refine Option.ext fun i => ?_
  rw [toInt32?_eq_some_iff, Binary64.exactCast?_eq_some_iff, ← beq_iff_compare]
  exact beq_iff_exactValue_eq (x := (.int i : Number Float)) rfl

end Number

namespace Dice

variable {x : Number ρ}

/-- A number of dice equals an integer that is not negative. -/
theorem count_eq_ok_iff_beq {n : Nat} :
    count (μ := μ) x = .ok n ↔ ∃ i : Int32, x == .int i ∧ 0 ≤ i.toInt ∧ i.toInt = n := by
  rw [count_eq_ok_iff]
  refine exists_congr fun i => and_congr Number.toInt32?_eq_some_iff_beq ?_
  omega

/-- A number of sides equals an integer that is positive. -/
theorem sides_eq_ok_iff_beq {m : Nat} :
    sides (μ := μ) x = .ok m ↔ ∃ i : Int32, x == .int i ∧ 1 ≤ i.toInt ∧ i.toInt = m := by
  rw [sides_eq_ok_iff]
  refine exists_congr fun i => and_congr Number.toInt32?_eq_some_iff_beq ?_
  omega

/-- Every other number is refused as a number of dice. -/
lemma count_eq_badCount (h : ¬∃ i : Int32, x == .int i ∧ 0 ≤ i.toInt) :
    count (μ := μ) x = .error (.badCount x) := by
  unfold count
  split
  · next i hi => exact if_neg fun hle => h ⟨i, Number.toInt32?_eq_some_iff_beq.1 hi, hle⟩
  · rfl

/-- Every other number is refused as a number of sides. -/
lemma sides_eq_badSides (h : ¬∃ i : Int32, x == .int i ∧ 1 ≤ i.toInt) :
    sides (μ := μ) x = .error (.badSides x) := by
  unfold sides
  split
  · next i hi => exact if_neg fun hlt => h ⟨i, Number.toInt32?_eq_some_iff_beq.1 hi, hlt⟩
  · rfl

end Dice

/-! ## Faces -/

/-- A number is the integer of a face: it is written as an integer, positive, and has the value of
the word. -/
def Number.Shows (face : UInt32) (x : Number ρ) : Prop :=
  ∃ i : Int32, x = .int i ∧ 0 < i.toInt ∧ i.toInt = face.toNat

/-- The word of a face. -/
lemma toNat_face {i : Nat} (hlt : i + 1 < 2 ^ 31) : (UInt32.ofNat (i + 1)).toNat = i + 1 :=
  UInt32.toNat_ofNat_of_lt' (Nat.lt_trans hlt (by decide))

omit [Scalar ρ] in
/-- A face of a die whose sides fit into the integers of 32 bits is cast to its value. -/
theorem Number.shows_face {m : Nat} (hm : m < 2 ^ 31) {face : UInt32} (hpos : 1 ≤ face.toNat)
    (hle : face.toNat ≤ m) : Number.Shows face (.int face.toInt32 : Number ρ) := by
  obtain ⟨i, hi, rfl⟩ := exists_face hpos hle
  have hcast : (UInt32.ofNat (i + 1)).toInt32.toInt = i + 1 := Law.toInt_face (by omega)
  have hword := toNat_face (i := i) (by omega)
  exact ⟨_, rfl, by omega, by omega⟩

/-- The faces of a die, from one to the number of sides. -/
def Dice.faces (sides : Nat) : List UInt32 := (List.range sides).map fun i => .ofNat (i + 1)

/-- The outcomes of a die whose sides fit into the integers of 32 bits are the integers of its
faces. -/
lemma Law.shows_keys_uniform [Mass μ] {m : Nat} (hm : m < 2 ^ 31) :
    List.Forall₂ (fun face o => ∃ x, o = Outcome.single (.number x) ∧ x.Shows face) (Dice.faces m)
      (Law.uniform m : Law ρ μ).keys := by
  rw [keys_uniform hm, Dice.faces, List.forall₂_map_left_iff, List.forall₂_map_right_iff,
    List.forall₂_same]
  intro i hi
  have hlt := List.mem_range.1 hi
  have hword := toNat_face (i := i) (by omega)
  exact ⟨_, rfl, Number.shows_face hm (by omega) (by omega)⟩

/-! ## All casts -/

/-- Operands of rolls are accepted if they are integers in range, and neither the cast of an operand
nor that of a face changes a value.

* A number passes to the integer of 32 bits that it equals, and to none if there is none. Two
  numbers that pass to integers are equal if these are the same. The numbers of dice are those that
  equal an integer from zero upwards, and the numbers of sides those that equal an integer from one
  upwards; all others are refused.
* For a double, this is the integer to which it is cast, behind a test that it has no fractional
  part and lies between the least and the greatest integer of 32 bits. This holds of every pattern
  of 64 bits: it is cast to an integer if this is its exact value, or, in other words, if it has the
  rank of the integer in the order of doubles. Patterns that are infinite, *not a number*,
  fractional or out of range are cast to none, and both zeros to zero.
* The components of a roll that is sampled are the casts of the faces that it is dealt. If the
  roller answers by faces from one to the number of sides, each of them is a positive integer that
  equals its face.
* The outcomes of a die that is tabulated are the casts of its faces, from one to the number of
  sides, and each of them is a positive integer that equals its face.

**Proof sketch.** A finite double is a mantissa under an exponent. Its fractional part is computed
without an error, and is zero exactly if the bits of the mantissa behind the point are. The bounds
of the test are doubles, and finite doubles are ordered by their values, so the cast does not stop
at a bound. A number of sides equals an integer of 32 bits, and so does every face up to it. -/
theorem operands_and_faces_are_cast_exactly :
    (∀ (ρ : Type) [Scalar ρ],
      (∀ (x : Number ρ) (i : Int32), x.toInt32? = some i ↔ x == .int i) ∧
      (∀ (x y : Number ρ) (i j : Int32), x.toInt32? = some i → y.toInt32? = some j →
        (x == y ↔ i = j)) ∧
      ∀ (μ : Type) (x : Number ρ),
        (∀ n, Dice.count (μ := μ) x = .ok n ↔ ∃ i : Int32, x == .int i ∧ 0 ≤ i.toInt ∧ i.toInt = n) ∧
        ((¬∃ i : Int32, x == .int i ∧ 0 ≤ i.toInt) →
          Dice.count (μ := μ) x = .error (.badCount x)) ∧
        (∀ m, Dice.sides (μ := μ) x = .ok m ↔ ∃ i : Int32, x == .int i ∧ 1 ≤ i.toInt ∧ i.toInt = m) ∧
        ((¬∃ i : Int32, x == .int i ∧ 1 ≤ i.toInt) →
          Dice.sides (μ := μ) x = .error (.badSides x))) ∧
    ((∀ x : Float, (Number.real x).toInt32? = Binary64.exactCast? x) ∧
      ∀ (b : UInt64) (i : Int32),
        (Binary64.exactCast? (.ofBits b) = some i ↔
          Binary64.value? b = some (Binary64.ofRat i.toInt)) ∧
        (Binary64.exactCast? (.ofBits b) = some i ↔
          Binary64.rank b = Binary64.rank (Binary64.ofInt32 i).toBits)) ∧
    (∀ (ρ μ σ : Type) [Scalar ρ] [Mass μ] [Roller σ] (count sides : Meaning ρ μ) (s t : Session ρ μ)
      (r r' : σ),
      (∀ vs, (Meaning.dice count sides).items.play s r = (.ok vs, t, r') ↔ ∃ n m faces,
        Meaning.IsDealt count sides s r n m faces t r' ∧
          vs = (faces.map fun face => Number.int face.toInt32).map Value.number) ∧
      ∀ n m faces, Meaning.IsDealt count sides s r n m faces t r' →
        (∀ face ∈ faces, 1 ≤ face.toNat ∧ face.toNat ≤ m) →
          List.Forall₂ Number.Shows faces
            (faces.map fun face => (Number.int face.toInt32 : Number ρ))) ∧
    ∀ (ρ μ : Type) [Scalar ρ] [Mass μ] (limits : Limits μ) (x : Number ρ) (m : Nat) (die : Law ρ μ),
      Dice.sides (μ := μ) x = .ok m → limits.uniform m = .ok die →
        List.Forall₂ (fun face o => ∃ y, o = Outcome.single (.number y) ∧ y.Shows face)
          (Dice.faces m) die.keys := by
  refine ⟨fun ρ _ => ⟨fun _ _ => Number.toInt32?_eq_some_iff_beq,
      fun _ _ _ _ => Number.beq_iff_of_toInt32?, fun μ x => ⟨fun _ => Dice.count_eq_ok_iff_beq,
        Dice.count_eq_badCount, fun _ => Dice.sides_eq_ok_iff_beq, Dice.sides_eq_badSides⟩⟩,
    ⟨Number.toInt32?_real, fun b i => ?_⟩, fun ρ μ σ _ _ _ count sides s t r r' =>
      ⟨fun vs => Meaning.play_items_dice_eq_ok_iff, fun n m faces hdealt hfaces => ?_⟩,
    fun ρ μ _ _ limits x m die hm hdie => ?_⟩
  · have hvalue : Binary64.exactCast? (.ofBits b) = some i ↔
        Binary64.value? b = some (Binary64.ofRat i.toInt) := by
      rw [Binary64.exactCast?_eq_some_iff, Binary64.value?_ofBits]
    exact ⟨hvalue, hvalue.trans (Binary64.rank_eq_rank_ofInt32_iff b i).symm⟩
  · rw [List.forall₂_map_right_iff, List.forall₂_same]
    intro face hface
    obtain ⟨hpos, hle⟩ := hfaces face hface
    exact Number.shows_face hdealt.sides_bounds.2 hpos hle
  · obtain rfl := Limits.eq_uniform_of_ok hdie
    exact Law.shows_keys_uniform (Dice.sides_bounds hm).2

/-- Two dice whose sides are the double `3.0` are dealt two faces, which are cast to themselves, and
the die has three outcomes. The double `2147483648.0` is out of range, a pattern of *not a number*
is cast to none, and the pattern of the negative zero to zero.

**Proof sketch.** The double `3.0` passes the check by computation, and the theorem gives that it is
three sides. The stepper deals the faces one and two, to which the parts on rolls and on the law of
the die are applied. -/
theorem operands_and_faces_are_cast_exactly_of_three_sides :
    let count : Meaning Float Float := .literal (.int 2)
    let sides : Meaning Float Float := .literal (.real 3.0)
    let s : Session Float Float := .start .standard
    let r : Stepper := ⟨1, 1⟩
    Dice.sides (μ := Float) (.real (3.0 : Float)) = .ok 3 ∧
    Dice.sides (μ := Float) (.real (2147483648.0 : Float)) = .error (.badSides (.real 2147483648.0)) ∧
    Binary64.exactCast? (.ofBits 0xFFF8000000000001) ≠ some 0 ∧
    Binary64.exactCast? (.ofBits 0x8000000000000000) = some 0 ∧
    (∃ t r', (Meaning.dice count sides).items.play s r =
      (.ok [.number (.int 1), .number (.int 2)], t, r')) ∧
    List.Forall₂ Number.Shows [1, 2] [(.int 1 : Number Float), .int 2] ∧
    ∃ die : Law Float Float, Limits.standard.uniform 3 = .ok die ∧ die.size = 3 := by
  intro count sides s r
  obtain ⟨hnumbers, ⟨-, hpatterns⟩, hdice, hdie⟩ := operands_and_faces_are_cast_exactly
  obtain ⟨hpasses, -, hoperands⟩ := hnumbers Float
  obtain ⟨-, -, hthree, -⟩ := hoperands Float (.real 3.0)
  obtain ⟨-, -, -, hlarge⟩ := hoperands Float (.real 2147483648.0)
  have hsides := (hthree 3).2 ⟨3, by decide +kernel, by decide, by decide⟩
  have hnone : (Number.real (2147483648.0 : Float)).toInt32? = none := by decide +kernel
  have hroll : Roller.roll 2 3 r = ([1, 2], ⟨3, 1⟩) := by cbv
  have hdealt : Meaning.IsDealt count sides s r 2 3 [1, 2] { s with spent := s.spent + 2 } ⟨3, 1⟩ :=
    ⟨.number (.real 3.0), s, r, .number (.int 2), s, r, rfl, hsides, rfl, rfl, by decide, hroll, rfl⟩
  obtain ⟨hitems, hfaces⟩ := hdice Float Float Stepper count sides s _ r _
  refine ⟨hsides, hlarge fun ⟨i, hi, _⟩ => ?_, ?_, ?_,
    ⟨_, _, (hitems _).2 ⟨2, 3, [1, 2], hdealt, rfl⟩⟩, hfaces 2 3 [1, 2] hdealt (by simp),
    .uniform 3, rfl, ?_⟩
  · cases hnone.symm.trans ((hpasses _ i).2 hi)
  · rw [Ne, (hpatterns _ 0).2]
    decide +kernel
  · rw [(hpatterns _ 0).2]
    decide +kernel
  · have hlength := (hdie Float Float .standard (.real 3.0) 3 _ hsides rfl).length_eq
    rw [Table.keys, List.length_map, Dice.faces, List.length_map, List.length_range] at hlength
    exact hlength.symm

end DiceCalculus
