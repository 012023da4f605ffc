import DiceCalculus.Proofs.Exact
import DiceCalculus.Proofs.Law.Normalized
import DiceCalculus.Proofs.Law.Numbers
import DiceCalculus.Proofs.Run.Exec

set_option autoImplicit false
set_option relaxedAutoImplicit false

/-!
# The operands of a roll

A roll with random operands has two exact views: the law of its sum, and the laws of its dice. The
first looks at the pairs of outcomes of the operands, where the components of both come one after the
other; the second looks at each operand on its own. They accept the same operands.

## Main definitions

* `Outcome.IsInteger` — an outcome that is one number and equals an integer with a property.
* `Outcome.IsInvalid` — what is wrong with an outcome that is no integer from a bound upwards.

## Main results

* `Dice.exists_operands_append_iff` — a pair of outcomes stands for a roll exactly if each of them is an
  operand.
* `Dice.ascending_weightedFaces` — the faces of a die, by its number of sides.
* `Dice.laws_isOk_iff_isInteger` — the operands that the laws of the dice accept.
* `Dice.isInteger_of_law` — the operands that the law of the sum accepts.
* `dice_views_accept_the_same_operands` — the two views side by side.
-/

namespace DiceCalculus

variable {ρ μ : Type} [Scalar ρ]

/-! ## Integers among the outcomes -/

namespace Outcome

variable {P : Int → Prop} {low : Int} {o o' : Outcome ρ}

/-- An outcome is one number, and equals an integer of 32 bits with a property. -/
def IsInteger (P : Int → Prop) (o : Outcome ρ) : Prop :=
  ∃ (x : Number ρ) (i : Int32), o = single (.number x) ∧ compare x (.int i) = .eq ∧ P i.toInt

/-- What is wrong with an outcome that does not equal an integer of 32 bits from a bound upwards. -/
inductive IsInvalid (low : Int) : Outcome ρ → Prop
  /-- It has several components. -/
  | compound {o : Outcome ρ} (h : 1 < o.arity) : IsInvalid low o
  /-- It is a die that was not rolled. -/
  | absent : IsInvalid low (single .absent)
  /-- It is a number that has a fraction, or is out of range, or is not finite. -/
  | notInteger {x : Number ρ} (h : ∀ i : Int32, compare x (.int i) ≠ .eq) :
    IsInvalid low (single (.number x))
  /-- It is an integer below the bound. -/
  | tooSmall {x : Number ρ} {i : Int32} (h : compare x (.int i) = .eq) (hlt : i.toInt < low) :
    IsInvalid low (single (.number x))

/-- A number equals an integer with a property if the integer that it passes to has it. -/
lemma isInteger_number_iff {x : Number ρ} :
    (single (.number x)).IsInteger P ↔ ∃ i, x.toInt32? = some i ∧ P i.toInt := by
  constructor
  · rintro ⟨_, i, hx, hi, hP⟩
    cases hx
    exact ⟨i, (Number.toInt32?_eq_some_iff _ _).2 (Std.OrientedCmp.eq_symm hi), hP⟩
  · rintro ⟨i, hi, hP⟩
    exact ⟨x, i, rfl, Std.OrientedCmp.eq_symm ((Number.toInt32?_eq_some_iff _ _).1 hi), hP⟩

/-- Every outcome is an integer from the bound upwards, or something is wrong with it, and not both. -/
lemma isInvalid_iff : o.IsInvalid low ↔ ¬o.IsInteger (low ≤ ·) := by
  constructor
  · rintro h ⟨x, j, rfl, hj, hle⟩
    cases h with
    | compound h => exact absurd h (Nat.lt_irrefl 1)
    | notInteger h => exact h j hj
    | @tooSmall _ i h hlt =>
      have hij : compare (.int i : Number ρ) (.int j) = .eq :=
        Std.TransCmp.eq_trans (Std.OrientedCmp.eq_symm h) hj
      have hij : i.toInt = j.toInt := Int.compare_eq_eq.1 hij
      omega
  · obtain ⟨a, as⟩ := o
    intro h
    cases as with
    | cons b bs => exact .compound (Nat.succ_lt_succ bs.length.succ_pos)
    | nil =>
      cases a with
      | absent => exact .absent
      | number x =>
        by_cases hx : ∃ i : Int32, compare x (.int i) = .eq
        · obtain ⟨i, hi⟩ := hx
          exact .tooSmall hi (not_le.1 fun hle => h ⟨x, i, rfl, hi, hle⟩)
        · exact .notInteger (not_exists.1 hx)

omit [Scalar ρ] in
/-- Two outcomes make a pair if each has one component. -/
lemma atoms_append_eq_pair_iff {a b : Atom ρ} :
    (o ++ o').atoms = [a, b] ↔ o = single a ∧ o' = single b := by
  constructor
  · intro h
    obtain ⟨c, _ | ⟨c', cs⟩⟩ := o
    · obtain ⟨d, ds⟩ := o'
      cases h
      exact ⟨rfl, rfl⟩
    · have hlength := congrArg List.length h
      rw [atoms_append, List.length_append] at hlength
      simp only [atoms, List.length_cons, List.length_nil] at hlength
      omega
  · rintro ⟨rfl, rfl⟩
    rfl

end Outcome

/-! ## Numbers of dice and of sides -/

namespace Dice

open Outcome

variable {o o' : Outcome ρ} {B : Nat → Prop}

/-- An outcome is a number of dice exactly if it is an integer that is not negative. -/
lemma exists_count_iff :
    (∃ n, (do count (μ := μ) (← scalar o)) = .ok n) ↔ o.IsInteger (0 ≤ ·) := by
  constructor
  · rintro ⟨n, h⟩
    obtain ⟨x, hx, h⟩ := Except.bind_eq_ok_iff.1 h
    obtain ⟨i, hi, hnonneg, -⟩ := count_eq_ok_iff.1 h
    rw [scalar_eq_ok_iff.1 hx]
    exact isInteger_number_iff.2 ⟨i, hi, hnonneg⟩
  · intro h
    obtain ⟨x, -, rfl, -⟩ := id h
    obtain ⟨i, hi, hnonneg⟩ := isInteger_number_iff.1 h
    exact ⟨_, count_eq_ok_iff.2 ⟨i, hi, hnonneg, rfl⟩⟩

/-- An outcome is a number of sides with a property exactly if it is a positive integer that has it. -/
lemma exists_sides_iff : (∃ m, (do sides (μ := μ) (← scalar o)) = .ok m ∧ B m) ↔
    o.IsInteger fun i => 1 ≤ i ∧ B i.toNat := by
  constructor
  · rintro ⟨m, h, hB⟩
    obtain ⟨x, hx, h⟩ := Except.bind_eq_ok_iff.1 h
    obtain ⟨i, hi, hpos, rfl⟩ := sides_eq_ok_iff.1 h
    rw [scalar_eq_ok_iff.1 hx]
    exact isInteger_number_iff.2 ⟨i, hi, hpos, hB⟩
  · intro h
    obtain ⟨x, -, rfl, -⟩ := id h
    obtain ⟨i, hi, hpos, hB⟩ := isInteger_number_iff.1 h
    exact ⟨_, sides_eq_ok_iff.2 ⟨i, hi, hpos, rfl⟩, hB⟩

/-- A pair of outcomes stands for a roll exactly if the first is a number of dice and the second is a
number of sides. -/
theorem exists_operands_append_iff :
    (∃ n m, operands (μ := μ) (o ++ o').atoms = .ok (n, m) ∧ B m) ↔
      o.IsInteger (0 ≤ ·) ∧ o'.IsInteger fun i => 1 ≤ i ∧ B i.toNat := by
  rw [← exists_count_iff (μ := μ), ← exists_sides_iff (μ := μ)]
  constructor
  · rintro ⟨n, m, h, hB⟩
    obtain ⟨x, y, hxy, hn, hm⟩ := operands_eq_ok_iff.1 h
    obtain ⟨rfl, rfl⟩ := atoms_append_eq_pair_iff.1 hxy
    exact ⟨⟨n, hn⟩, m, hm, hB⟩
  · rintro ⟨⟨n, hn⟩, m, hm, hB⟩
    obtain ⟨x, hx, hn⟩ := Except.bind_eq_ok_iff.1 hn
    obtain ⟨y, hy, hm⟩ := Except.bind_eq_ok_iff.1 hm
    have hxy := atoms_append_eq_pair_iff.2 ⟨scalar_eq_ok_iff.1 hx, scalar_eq_ok_iff.1 hy⟩
    exact ⟨n, m, operands_eq_ok_iff.2 ⟨x, y, hxy, hn, hm⟩, hB⟩

/-- Whether a pair of outcomes stands for a roll does not depend on how its numbers are written. -/
lemma isInvariant_exists_operands {B : Nat → Nat → Prop} : IsInvariant fun o : Outcome ρ =>
    ∃ n m, operands (μ := μ) o.atoms = .ok (n, m) ∧ B n m :=
  fun _ _ h => propext (exists_congr fun _ => exists_congr fun _ => and_congr_left' (operands_congr h))

end Dice

/-! ## Two laws side by side -/

variable [Mass μ] {limits : Limits μ} {l l' : Law ρ μ}

/-- A joint law has an outcome with a property exactly if a pair of outcomes has it. -/
lemma Law.exists_product_iff {P : Outcome ρ → Prop} (hP : Outcome.IsInvariant P) :
    (∃ e ∈ (l.product l').entries, P e.1) ↔ ∃ o ∈ l.keys, ∃ o' ∈ l'.keys, P (o ++ o') := by
  unfold product
  rw [Table.exists_key_ofEntries_iff fun o p h => (hP o p h).to_iff]
  constructor
  · rintro ⟨e, he, h⟩
    obtain ⟨e₁, he₁, he⟩ := List.mem_flatMap.1 he
    obtain ⟨e₂, he₂, rfl⟩ := List.mem_map.1 he
    exact ⟨_, List.mem_map_of_mem he₁, _, List.mem_map_of_mem he₂, h⟩
  · rintro ⟨o, ho, o', ho', h⟩
    obtain ⟨e₁, he₁, rfl⟩ := List.mem_map.1 ho
    obtain ⟨e₂, he₂, rfl⟩ := List.mem_map.1 ho'
    exact ⟨_, List.mem_flatMap.2 ⟨e₁, he₁, List.mem_map_of_mem he₂⟩, h⟩

/-- All outcomes of a joint law have a property exactly if all pairs of outcomes have it. -/
lemma Law.forall_product_iff {P : Outcome ρ → Prop} (hP : Outcome.IsInvariant P) :
    (∀ e ∈ (l.product l').entries, P e.1) ↔ ∀ o ∈ l.keys, ∀ o' ∈ l'.keys, P (o ++ o') := by
  have hnot : Outcome.IsInvariant fun o => ¬P o := fun o p h => congrArg Not (hP o p h)
  have hmiss : (¬∃ e ∈ (l.product l').entries, ¬P e.1) ↔
      ¬∃ o ∈ l.keys, ∃ o' ∈ l'.keys, ¬P (o ++ o') := (exists_product_iff hnot).not
  push Not at hmiss
  exact hmiss

omit [Mass μ] in
/-- A law of integers is a law of numbers. -/
lemma Law.isOfNumbers_of_isInteger {P : Int → Prop} (h : ∀ o ∈ l.keys, o.IsInteger P) :
    l.IsOfNumbers := fun e he => by
  obtain ⟨x, -, hx, -⟩ := h e.1 (List.mem_map_of_mem he)
  exact ⟨_, ⟨x, rfl⟩, hx⟩

/-! ## The laws of the dice -/

namespace Dice

open Outcome

/-- There are the faces of a die exactly if all outcomes are numbers of sides that the limit allows. -/
lemma weightedFaces_isOk_iff : (∃ faces, weightedFaces limits l' = .ok faces) ↔
    ∀ o ∈ l'.keys, o.IsInteger fun m => 1 ≤ m ∧ Limits.allows limits.maxOutcomes m.toNat := by
  unfold weightedFaces Table.keys
  rw [Except.exists_mapM_eq_ok_iff, List.forall_mem_map]
  refine forall₂_congr fun e _ => Iff.trans ?_
    (exists_sides_iff (μ := μ) (B := fun m => Limits.allows limits.maxOutcomes m))
  constructor
  · rintro ⟨face, h⟩
    obtain ⟨x, hx, h⟩ := Except.bind_eq_ok_iff.1 h
    obtain ⟨m, hm, h⟩ := Except.bind_eq_ok_iff.1 h
    obtain ⟨die, hdie, -⟩ := Except.bind_eq_ok_iff.1 h
    exact ⟨m, Except.bind_eq_ok_iff.2 ⟨x, hx, hm⟩, (Limits.uniform_eq_ok_iff.1 hdie).1⟩
  · rintro ⟨m, h, hallows⟩
    obtain ⟨x, hx, hm⟩ := Except.bind_eq_ok_iff.1 h
    exact ⟨_, Except.bind_eq_ok_iff.2 ⟨x, hx, Except.bind_eq_ok_iff.2 ⟨m, hm,
      Except.bind_eq_ok_iff.2 ⟨_, Limits.uniform_eq_ok_iff.2 ⟨hallows, rfl⟩, rfl⟩⟩⟩⟩

omit [Mass μ] in
/-- Numbers of sides are ordered as the outcomes that stand for them. -/
lemma lt_of_sides {o o' : Outcome ρ} {m m' : Nat} (h : (do sides (μ := μ) (← scalar o)) = .ok m)
    (h' : (do sides (μ := μ) (← scalar o')) = .ok m') (hlt : compare o o' = .lt) : m < m' := by
  obtain ⟨x, hx, hm⟩ := Except.bind_eq_ok_iff.1 h
  obtain ⟨x', hx', hm'⟩ := Except.bind_eq_ok_iff.1 h'
  obtain ⟨i, hi, hpos, rfl⟩ := sides_eq_ok_iff.1 hm
  obtain ⟨i', hi', hpos', rfl⟩ := sides_eq_ok_iff.1 hm'
  rw [Number.toInt32?_eq_some_iff] at hi hi'
  rw [scalar_eq_ok_iff.1 hx, scalar_eq_ok_iff.1 hx', compare_single] at hlt
  change compare x x' = .lt at hlt
  rw [← Std.TransCmp.congr_left hi, ← Std.TransCmp.congr_right hi'] at hlt
  have hint : i.toInt < i'.toInt := Int.compare_eq_lt.1 hlt
  omega

/-- The faces of a die are listed by its number of sides: there is one entry for each outcome, and the
numbers of sides ascend strictly as the outcomes do. Collected by number of sides, no entry would take
the place of another, and their order would be the same.

**Proof sketch.** By induction over the outcomes. An outcome lies below all that follow, and so does the
integer that it equals. -/
theorem ascending_weightedFaces {faces : List (Law ρ μ)} (h : weightedFaces limits l' = .ok faces) :
    ∃ ms : List Nat, ms.Pairwise (· < ·) ∧
      (l'.entries.mapM fun e => do sides (μ := μ) (← scalar e.1)) = .ok ms ∧
      faces = List.zipWith (fun e m => Law.addScaled .empty e.2 (.uniform m)) l'.entries ms := by
  obtain ⟨es, hes⟩ := l'
  have hfaces : List.Forall₂ _ es faces := Except.mapM_eq_ok_iff.1 h
  clear h
  induction hfaces with
  | nil => exact ⟨[], .nil, rfl, rfl⟩
  | @cons e face es faces hface _ ih =>
    obtain ⟨hhead, htail⟩ := List.pairwise_cons.1 hes
    obtain ⟨ms, hms, hsides, rfl⟩ := ih htail
    obtain ⟨x, hx, hface⟩ := Except.bind_eq_ok_iff.1 hface
    obtain ⟨m, hm, hface⟩ := Except.bind_eq_ok_iff.1 hface
    obtain ⟨die, hdie, hface⟩ := Except.bind_eq_ok_iff.1 hface
    have hm : (do sides (μ := μ) (← scalar e.1)) = .ok m := Except.bind_eq_ok_iff.2 ⟨x, hx, hm⟩
    refine ⟨m :: ms, List.pairwise_cons.2 ⟨?_, hms⟩, ?_, ?_⟩
    · intro k hk
      obtain ⟨e', he', hk⟩ := Except.exists_of_mem_mapM hsides k hk
      exact lt_of_sides hm hk (hhead e' he')
    · exact Except.mapM_eq_ok_iff.2 (.cons hm (Except.mapM_eq_ok_iff.1 hsides))
    · rw [← Except.pure_eq_ok_iff.1 hface, Limits.eq_uniform_of_ok hdie]
      rfl

omit [Mass μ] in
/-- There is a greatest number of dice exactly if all outcomes are numbers of dice. -/
lemma greatestCount_isOk_iff : (∃ greatest, greatestCount (μ := μ) l.keys = .ok greatest) ↔
    ∀ o ∈ l.keys, o.IsInteger (0 ≤ ·) := by
  simp only [← exists_count_iff (μ := μ)]
  rw [← Except.exists_mapM_eq_ok_iff]
  constructor
  · rintro ⟨greatest, h⟩
    obtain ⟨counts, hcounts, -⟩ := Except.bind_eq_ok_iff.1 h
    exact ⟨counts, hcounts⟩
  · rintro ⟨counts, hcounts⟩
    exact ⟨_, Except.bind_eq_ok_iff.2 ⟨counts, hcounts, rfl⟩⟩

/-- A law of numbers reaches every position with some mass. -/
lemma exists_reach (hl : l.IsOfNumbers) (position : Nat) : ∃ p, reach l position = .ok p := by
  have hposition := Law.isOfNumbers_certain (ρ := ρ) (μ := μ) (.int (.ofNat position))
  have hreach : Ensures (fun _ => True) (fun _ => False) (reach l position) := by
    refine (Law.ensures_fold (A := Atom.IsNumber) fun e he => ?_).bind fun _ _ => trivial
    obtain ⟨_, _, ⟨x, rfl⟩, ⟨y, rfl⟩, h⟩ := Law.isOverPairs_product hl hposition e he
    rw [h]
    exact ⟨_, rfl⟩
  cases h : reach l position with
  | ok p => exact ⟨p, rfl⟩
  | error f =>
    rw [h] at hreach
    exact hreach.elim

/-- The dice of a roll have laws exactly if the numbers of dice are integers that are not negative, and
the numbers of sides are positive integers that the limit of outcomes allows. -/
theorem laws_isOk_iff_isInteger : (∃ dice, laws limits l l' = .ok dice) ↔
    (∀ o ∈ l.keys, o.IsInteger (0 ≤ ·)) ∧
      ∀ o ∈ l'.keys, o.IsInteger fun m => 1 ≤ m ∧ Limits.allows limits.maxOutcomes m.toNat := by
  rw [← greatestCount_isOk_iff (μ := μ), ← weightedFaces_isOk_iff]
  constructor
  · rintro ⟨dice, h⟩
    obtain ⟨faces, hfaces, h⟩ := Except.bind_eq_ok_iff.1 h
    obtain ⟨greatest, hgreatest, -⟩ := Except.bind_eq_ok_iff.1 h
    exact ⟨⟨greatest, hgreatest⟩, faces, hfaces⟩
  · rintro ⟨⟨greatest, hgreatest⟩, faces, hfaces⟩
    have hl := Law.isOfNumbers_of_isInteger (greatestCount_isOk_iff.1 ⟨greatest, hgreatest⟩)
    have hdie (i : Nat) : ∃ die, (do return dieLaw faces (← reach l (i + 1))) = Except.ok die := by
      obtain ⟨p, hp⟩ := exists_reach hl (i + 1)
      exact ⟨dieLaw faces p, Except.bind_eq_ok_iff.2 ⟨p, hp, rfl⟩⟩
    obtain ⟨dice, hdice⟩ := Except.exists_mapM_eq_ok_iff.2 fun i (_ : i ∈ List.range greatest) => hdie i
    exact ⟨dice, Except.bind_eq_ok_iff.2 ⟨faces, hfaces, Except.bind_eq_ok_iff.2
      ⟨greatest, hgreatest, hdice⟩⟩⟩

/-! ## The law of the sum -/

/-- A mixture of sums has a law only if all outcomes stand for rolls whose sums have laws. -/
lemma exists_sumLaw_of_mixSums {es : List (Outcome ρ × μ)} {mixture d : Law ρ μ}
    (h : mixSums limits es mixture = .ok d) : ∀ e ∈ es, ∃ n m,
      operands (μ := μ) e.1.atoms = .ok (n, m) ∧ ∃ sum : Law ρ μ, sumLaw limits n m = .ok sum := by
  induction es generalizing mixture with
  | nil => exact fun _ => nofun
  | cons e es ih =>
    obtain ⟨⟨n, m⟩, hop, h⟩ := Except.bind_eq_ok_iff.1 h
    obtain ⟨sum, hsum, h⟩ := Except.bind_eq_ok_iff.1 h
    exact List.forall_mem_cons.2 ⟨⟨n, m, hop, sum, hsum⟩, ih h⟩

/-- A mixture of sums has a law only if all outcomes stand for rolls with a number of sides that the
limit allows. -/
lemma exists_operands_of_mixSums {es : List (Outcome ρ × μ)} {mixture d : Law ρ μ}
    (h : mixSums limits es mixture = .ok d) : ∀ e ∈ es, ∃ n m,
      operands (μ := μ) e.1.atoms = .ok (n, m) ∧ Limits.allows limits.maxOutcomes m := by
  intro e he
  obtain ⟨n, m, hop, sum, hsum⟩ := exists_sumLaw_of_mixSums h e he
  obtain ⟨die, hdie, -⟩ := Except.bind_eq_ok_iff.1 hsum
  exact ⟨n, m, hop, (Limits.uniform_eq_ok_iff.1 hdie).1⟩

/-- A mixture of sums fails for the limit of outcomes only, if all outcomes stand for rolls. -/
lemma ensures_mixSums_of_operands {es : List (Outcome ρ × μ)}
    (hes : ∀ e ∈ es, ∃ n m, operands (μ := μ) e.1.atoms = .ok (n, m)) (mixture : Law ρ μ) :
    Ensures (fun _ => True) limits.IsExcess (mixSums limits es mixture) := by
  induction es generalizing mixture with
  | nil => trivial
  | cons e es ih =>
    obtain ⟨⟨n, m, hop⟩, hes⟩ := List.forall_mem_cons.1 hes
    have hop : Ensures (fun _ => True) limits.IsExcess (operands (μ := μ) e.1.atoms) := by
      rw [hop]
      trivial
    exact hop.bind fun nm _ => (ensures_sumLaw limits nm.1 nm.2).bind fun sum _ => ih hes _

/-- A roll has a law only if its operands are such as the laws of its dice accept. None of them may be a
law without outcomes: then there is no pair, and nothing is looked at. -/
theorem isInteger_of_law (hl : l.entries ≠ []) (hl' : l'.entries ≠ []) {d : Law ρ μ}
    (h : law limits l l' = .ok d) : (∀ o ∈ l.keys, o.IsInteger (0 ≤ ·)) ∧
      ∀ o ∈ l'.keys, o.IsInteger fun m => 1 ≤ m ∧ Limits.allows limits.maxOutcomes m.toNat := by
  obtain ⟨joint, hjoint, h⟩ := Except.bind_eq_ok_iff.1 h
  obtain rfl := Limits.eq_product_of_ok hjoint
  have hpairs := (Law.forall_product_iff isInvariant_exists_operands).1 (exists_operands_of_mixSums h)
  obtain ⟨e, he⟩ := List.exists_mem_of_ne_nil _ hl
  obtain ⟨e', he'⟩ := List.exists_mem_of_ne_nil _ hl'
  constructor
  · intro o ho
    exact (exists_operands_append_iff.1 (hpairs o ho e'.1 (List.mem_map_of_mem he'))).1
  · intro o' ho'
    exact (exists_operands_append_iff.1 (hpairs e.1 (List.mem_map_of_mem he) o' ho')).2

/-- A roll with numbers of dice and of sides as operands has a law, or exceeds the limit of outcomes. -/
lemma ensures_law_of_isInteger (hl : ∀ o ∈ l.keys, o.IsInteger (0 ≤ ·))
    (hl' : ∀ o ∈ l'.keys, o.IsInteger (1 ≤ ·)) :
    Ensures (fun _ => True) limits.IsExcess (law limits l l') := by
  have hproduct := limits.ensures_product (Law.isOfNumbers_of_isInteger hl)
    (Law.isOfNumbers_of_isInteger hl')
  refine (hproduct.of_ok fun joint h => Limits.eq_product_of_ok h).bind ?_
  rintro _ rfl
  refine ensures_mixSums_of_operands (fun e he => ?_) .empty
  have hinv := isInvariant_exists_operands (ρ := ρ) (μ := μ) (B := fun _ _ => True)
  obtain ⟨n, m, hop, -⟩ := (Law.forall_product_iff hinv).2 (fun o ho o' ho' =>
    exists_operands_append_iff.2 ⟨hl o ho, by simpa using hl' o' ho'⟩) e he
  exact ⟨n, m, hop⟩

end Dice

/-! ## Both views -/

/-- A roll whose operands have laws has the views that are computed from these laws. -/
lemma Meaning.exec_dice {count sides : Meaning ρ μ} {s t u : Session ρ μ}
    (hcount : count.law.exec s = .done (.ok l, t)) (hsides : sides.law.exec t = .done (.ok l', u)) :
    (dice count sides).law.exec s = .done ((Dice.law u.limits l l').mapError .fault, u) ∧
      (dice count sides).laws.exec s = .done ((Dice.laws u.limits l l').mapError .fault, u) := by
  constructor
  · calc (dice count sides).law.exec s
      _ = (Run.ofExcept (Dice.law u.limits l l')).exec u :=
          (Run.exec_bind_done hcount).trans (Run.exec_bind_done hsides)
      _ = _ := Run.exec_ofExcept ..
  · calc (dice count sides).laws.exec s
      _ = (Run.ofExcept (Dice.laws u.limits l l')).exec u :=
          (Run.exec_bind_done hcount).trans (Run.exec_bind_done hsides)
      _ = _ := Run.exec_ofExcept ..

/-- The two exact views of a roll accept the same operands, whatever the limit of outcomes is. The laws
of the operands have an outcome each; these may have any number of components, which may be numbers in
either form or absent.

* If there is a law of the sum, then there are laws of the dice.
* If there are laws of the dice, then there is a law of the sum, or it exceeds the limit.
* There are laws of the dice exactly if all numbers of dice are integers that are not negative and all
  numbers of sides are positive integers that the limit allows.
* If something is wrong with an outcome of an operand, then both views fail.
* These are the views of a roll in a session, once its operands have these laws.

**Proof sketch.** An operand that the second view looks at on its own occurs in a pair that the first one
looks at, because the other operand has an outcome. A pair with two components is made of two outcomes
with one. The joint law keeps one pair of those that compare equal, but whether it stands for a roll
does not depend on how it is written. -/
theorem dice_views_accept_the_same_operands (limits : Limits μ) (hl : l.entries ≠ [])
    (hl' : l'.entries ≠ []) :
    (∀ sum, Dice.law limits l l' = .ok sum → ∃ dice, Dice.laws limits l l' = .ok dice) ∧
    (∀ dice, Dice.laws limits l l' = .ok dice → (∃ sum, Dice.law limits l l' = .ok sum) ∨
      ∃ limit, limits.maxOutcomes = some limit ∧
        Dice.law limits l l' = .error (.tooManyOutcomes limit)) ∧
    ((∃ dice, Dice.laws limits l l' = .ok dice) ↔ (∀ o ∈ l.keys, o.IsInteger (0 ≤ ·)) ∧
      ∀ o ∈ l'.keys, o.IsInteger fun m => 1 ≤ m ∧ Limits.allows limits.maxOutcomes m.toNat) ∧
    ((∃ o ∈ l.keys, o.IsInvalid 0) ∨ (∃ o ∈ l'.keys, o.IsInvalid 1) →
      (∃ f, Dice.law limits l l' = .error f) ∧ ∃ f, Dice.laws limits l l' = .error f) ∧
    ∀ (count sides : Meaning ρ μ) (s t u : Session ρ μ), count.law.exec s = .done (.ok l, t) →
      sides.law.exec t = .done (.ok l', u) → u.limits = limits →
        (Meaning.dice count sides).law.exec s =
          .done ((Dice.law limits l l').mapError .fault, u) ∧
        (Meaning.dice count sides).laws.exec s =
          .done ((Dice.laws limits l l').mapError .fault, u) := by
  have hlaws : (∃ dice, Dice.laws limits l l' = .ok dice) ↔ _ := Dice.laws_isOk_iff_isInteger
  have hsum (sum : Law ρ μ) (h : Dice.law limits l l' = .ok sum) :
      ∃ dice, Dice.laws limits l l' = .ok dice := hlaws.2 (Dice.isInteger_of_law hl hl' h)
  have hpositive {o : Outcome ρ} {Q : Int → Prop} (h : o.IsInteger fun m => 1 ≤ m ∧ Q m) :
      o.IsInteger (1 ≤ ·) := by
    obtain ⟨x, i, ho, hi, hle, -⟩ := h
    exact ⟨x, i, ho, hi, hle⟩
  refine ⟨hsum, fun dice hdice => ?_, hlaws, fun hinvalid => ?_, fun count sides s t u => ?_⟩
  · obtain ⟨hcounts, hsides⟩ := hlaws.1 ⟨dice, hdice⟩
    have hlaw : Ensures (fun _ => True) limits.IsExcess (Dice.law limits l l') :=
      Dice.ensures_law_of_isInteger hcounts fun o ho => hpositive (hsides o ho)
    cases h : Dice.law limits l l' with
    | ok sum => exact .inl ⟨sum, rfl⟩
    | error f =>
      rw [h] at hlaw
      obtain ⟨limit, hlimit, rfl⟩ := hlaw
      exact .inr ⟨limit, hlimit, rfl⟩
  · have hnone : ¬∃ dice, Dice.laws limits l l' = .ok dice := fun h => by
      obtain ⟨hcounts, hsides⟩ := hlaws.1 h
      rcases hinvalid with ⟨o, ho, hbad⟩ | ⟨o, ho, hbad⟩
      · exact Outcome.isInvalid_iff.1 hbad (hcounts o ho)
      · exact Outcome.isInvalid_iff.1 hbad (hpositive (hsides o ho))
    constructor
    · cases h : Dice.law limits l l' with
      | ok sum => exact absurd (hsum sum h) hnone
      | error f => exact ⟨f, rfl⟩
    · cases h : Dice.laws limits l l' with
      | ok dice => exact absurd ⟨dice, h⟩ hnone
      | error f => exact ⟨f, rfl⟩
  · rintro hcount hsides rfl
    exact Meaning.exec_dice hcount hsides

/-- The limit allows six outcomes. Two dice with six sides have a law each, and the law of their sum
exceeds the limit. If the number of sides may also be a pair, then neither view accepts it. -/
theorem dice_views_accept_the_same_operands_of_two_dice :
    let limits : Limits ℚ := ⟨none, none, some 6, 0⟩
    let two : Law (WithBot ℚ) ℚ := .certain (.number (.int 2))
    let six : Law (WithBot ℚ) ℚ := .certain (.number (.int 6))
    let pair : Outcome (WithBot ℚ) := .single (.number (.int 2)) ++ .single .absent
    let mixed : Law (WithBot ℚ) ℚ := .ofEntries [(.single (.number (.int 6)), 1 / 2), (pair, 1 / 2)]
    ((∃ dice, Dice.laws limits two six = .ok dice) ∧
      Dice.law limits two six = .error (.tooManyOutcomes 6)) ∧
    (∃ f, Dice.law limits two mixed = .error f) ∧ ∃ f, Dice.laws limits two mixed = .error f := by
  intro limits two six pair mixed
  have htwo : two.entries ≠ [] := by decide +kernel
  constructor
  · obtain ⟨-, hdice, -⟩ :=
      dice_views_accept_the_same_operands limits htwo (show six.entries ≠ [] by decide +kernel)
    have hsome : (Dice.laws limits two six).toOption.isSome = true := by decide +kernel
    have hnone : (Dice.law limits two six).toOption.isNone = true := by decide +kernel
    obtain ⟨dice, h⟩ := Except.exists_eq_ok_of_isSome hsome
    refine ⟨⟨dice, h⟩, ?_⟩
    rcases hdice dice h with ⟨sum, hsum⟩ | ⟨limit, hlimit, herror⟩
    · rw [hsum] at hnone
      cases hnone
    · cases hlimit
      exact herror
  · obtain ⟨-, -, -, hfail, -⟩ :=
      dice_views_accept_the_same_operands limits htwo (show mixed.entries ≠ [] by decide +kernel)
    have hkeys : mixed.keys = [pair, .single (.number (.int 6))] := by decide +kernel
    have hpair : pair ∈ mixed.keys := hkeys ▸ List.mem_cons_self
    exact hfail (.inr ⟨pair, hpair, .compound (by decide)⟩)

end DiceCalculus
