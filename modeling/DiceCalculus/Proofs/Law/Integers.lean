import Mathlib.Algebra.BigOperators.Ring.Finset
import Mathlib.Order.Interval.Finset.Nat
import DiceCalculus.Proofs.Exact
import DiceCalculus.Proofs.Law.Numbers
import DiceCalculus.Proofs.Law.RandomMaximum

set_option autoImplicit false
set_option relaxedAutoImplicit false

/-!
# Laws of integers

Integers within 32 bits are added exactly, whatever the arithmetic of reals does. So the sum of two
laws of integers is a convolution, as long as no sum leaves the range. An integral over the operands of
a roll is likewise a sum over the natural numbers, each weighted by its mass.

## Main definitions

* `Outcome.integer` — the sum of the integers of an outcome.
* `Law.IsOfIntegers` — a law of integers between two bounds, written as integers.
* `Law.massAt` — the mass of a natural number.

## Main results

* `Law.IsOfIntegers.exists_operate_add` — the sum of two laws of integers.
* `Law.keys_uniform` — the outcomes of a fair die.
* `Law.IsOfIntegers.keys_eq` — the outcomes of a law of integers in which every integer has a mass.
* `Dice.integral_countAt_eq_sum`, `Dice.integral_sidesAt_eq_sum` — integrals over the operands of a roll.
-/

namespace DiceCalculus

variable {ρ : Type} [Scalar ρ] {limits : Limits ℚ}

open Outcome

/-! ## The integers of an outcome -/

/-- The integer that an atom equals, and zero if it equals none. -/
def Atom.integer (a : Atom ρ) : Int := (a.number?.bind Number.toInt32?).elim 0 Int32.toInt

/-- Equal atoms equal the same integer. -/
lemma Atom.integer_congr {a b : Atom ρ} (h : compare a b = .eq) : a.integer = b.integer := by
  cases a with
  | absent =>
    cases b with
    | absent => rfl
    | number y => cases h
  | number x =>
    cases b with
    | absent => cases h
    | number y => exact congrArg (Option.elim · 0 Int32.toInt) (Number.toInt32?_congr h)

namespace Outcome

/-- The sum of the integers of an outcome. -/
def integer (o : Outcome ρ) : Int := (o.atoms.map Atom.integer).sum

/-- The integer of an outcome that is one. -/
@[simp] lemma integer_int (i : Int32) : (single (.number (.int i)) : Outcome ρ).integer = i.toInt :=
  add_zero _

/-- The integers of a joint outcome. -/
@[simp] lemma integer_append (o p : Outcome ρ) : (o ++ p).integer = o.integer + p.integer := by
  unfold integer
  rw [atoms_append, List.map_append, List.sum_append]

/-- The sum of the integers does not depend on how numbers are written. -/
lemma isInvariant_integer : IsInvariant (integer (ρ := ρ)) := by
  intro o p h
  have hmap {as bs : List (Atom ρ)} (hatoms : List.Forall₂ (fun a b => compare a b = .eq) as bs) :
      as.map Atom.integer = bs.map Atom.integer := by
    induction hatoms with
    | nil => rfl
    | cons hab _ ih => rw [List.map_cons, List.map_cons, Atom.integer_congr hab, ih]
  exact congrArg List.sum (hmap ((compare_eq_iff o p).1 h))

/-- Integers compare as such. -/
lemma compare_int (i j : Int32) :
    compare (single (.number (.int i)) : Outcome ρ) (single (.number (.int j))) =
      compare i.toInt j.toInt := by
  show List.compareLex compare [Atom.number (ρ := ρ) (.int i)] [.number (.int j)] = _
  rw [List.compareLex_cons_cons, List.compareLex_nil_nil, Ordering.then_eq]
  rfl

end Outcome

/-- The sum of two integers within 32 bits is exact. -/
lemma Number.int_add_int {i j k : Int32} (h : k.toInt = i.toInt + j.toInt) :
    (.int i + .int j : Number ρ) = .int k := by
  show Number.add (.int i) (.int j) = (.int k : Number ρ)
  simp only [Number.add, Number.promote, Int32.ofInt?_eq_some_iff.2 h]

/-! ## Laws of integers -/

namespace Law

/-- All outcomes have one component, which is an integer between two bounds, written as one. -/
def IsOfIntegers (lo hi : Int) (l : Law ρ ℚ) : Prop :=
  l.IsOver fun a => ∃ i : Int32, a = .number (.int i) ∧ lo ≤ i.toInt ∧ i.toInt ≤ hi

variable {l l' : Law ρ ℚ} {lo hi lo' hi' : Int}

/-- The table of entries of one component. -/
lemma isOver_ofEntries {A : Atom ρ → Prop} {es : List (Outcome ρ × ℚ)}
    (hes : ∀ e ∈ es, ∃ a, A a ∧ e.1 = single a) : IsOver A (Table.ofEntries es : Law ρ ℚ) :=
  Table.forall_key_ofEntries (Q := fun o : Outcome ρ => ∃ a, A a ∧ o = single a) hes

/-- A constant integer. -/
lemma isOfIntegers_certain (i : Int32) :
    (certain (.number (.int i)) : Law ρ ℚ).IsOfIntegers i.toInt i.toInt :=
  isOver_certain ⟨i, rfl, le_rfl, le_rfl⟩

/-- The face of a die whose sides fit into the integers of 32 bits. -/
lemma toInt_face {i : Nat} (hlt : i + 1 < 2 ^ 31) :
    (UInt32.ofNat (i + 1)).toInt32.toInt = i + 1 :=
  Int32.toInt_ofNat_of_lt hlt

/-- The outcomes of a fair die whose sides fit into the integers of 32 bits are its faces, in ascending
order. -/
theorem keys_uniform {μ : Type} [Mass μ] {sides : Nat} (hsides : sides < 2 ^ 31) :
    (uniform sides : Law ρ μ).keys = (List.range sides).map fun i => face (.ofNat (i + 1)) := by
  have hcompare {i j : Nat} (hi : i < sides) (hj : j < sides) :
      compare (face (.ofNat (i + 1)) : Outcome ρ) (face (.ofNat (j + 1))) =
        compare ((i : Int) + 1) (j + 1) := by
    show compare (single (.number (.int _)) : Outcome ρ) (single (.number (.int _))) = _
    rw [compare_int, toInt_face (by omega), toInt_face (by omega)]
  let entry (i : Nat) : Outcome ρ × μ := (face (.ofNat (i + 1)), Mass.share sides)
  have hforms : ∀ e ∈ (List.range sides).map entry, ∀ e' ∈ (List.range sides).map entry,
      compare e.1 e'.1 = .eq → e.1 = e'.1 := by
    simp only [List.forall_mem_map, List.mem_range]
    intro i hi j hj h
    rw [hcompare hi hj, compare_eq_iff_eq] at h
    rw [show i = j by omega]
  refine Table.keys_eq_of_mem_iff (List.pairwise_map.2 ?_) fun o => ?_
  · refine List.pairwise_lt_range.imp_of_mem fun {i j} hi hj hij => ?_
    rw [hcompare (List.mem_range.1 hi) (List.mem_range.1 hj), compare_lt_iff_lt]
    omega
  · rw [uniform, Table.mem_keys_ofEntries hforms, List.map_map]
    rfl

/-- The faces of a die. -/
lemma isOfIntegers_uniform {sides : Nat} (hsides : sides < 2 ^ 31) :
    (uniform sides : Law ρ ℚ).IsOfIntegers 1 sides := by
  refine isOver_ofEntries (List.forall_mem_map.2 fun i hi => ?_)
  have hlt := List.mem_range.1 hi
  have hface : (UInt32.ofNat (i + 1)).toInt32.toInt = i + 1 := toInt_face (by omega)
  exact ⟨_, ⟨_, rfl, by omega, by omega⟩, rfl⟩

/-- The sum of two laws of integers is their convolution, if no sum leaves the range.

**Proof sketch.** Every pair of outcomes is a pair of integers, whose sum is in the range and so is
computed as an integer. Hence the operation succeeds at every pair, its outcomes are integers
between the sums of the bounds, and an integral over it is one over the product, in which integers
are added. -/
theorem IsOfIntegers.exists_operate_add (hlimits : limits.maxOutcomes = none)
    (hl : l.IsOfIntegers lo hi) (hl' : l'.IsOfIntegers lo' hi') (hlo : -2 ^ 31 ≤ lo + lo')
    (hhi : hi + hi' < 2 ^ 31) :
    ∃ d, operate limits .add l l' = .ok d ∧ d.IsOfIntegers (lo + lo') (hi + hi') ∧
      ∀ f : Int → ℚ, d.integral (fun o => f o.integer) =
        l.integral fun o => l'.integral fun o' => f (o.integer + o'.integer) := by
  have hvalue : ∀ e ∈ (l.product l').entries, ∃ k : Int32,
      Operator.combine (μ := ℚ) .add e.1.atoms = .ok (.number (.int k)) ∧
        k.toInt = e.1.integer ∧ lo + lo' ≤ k.toInt ∧ k.toInt ≤ hi + hi' := by
    intro e he
    obtain ⟨_, _, ⟨i, rfl, hi⟩, ⟨j, rfl, hj⟩, ho⟩ := isOverPairs_product hl hl' e he
    obtain ⟨k, hk⟩ : ∃ k : Int32, k.toInt = i.toInt + j.toInt :=
      ⟨.ofInt (i.toInt + j.toInt), Int32.toInt_ofInt_of_le (by omega) (by omega)⟩
    refine ⟨k, ?_, ?_, by omega, by omega⟩
    · rw [ho, combine_eq_ok_iff]
      exact ⟨.int i, .int j, .int k, rfl, congrArg some (Number.int_add_int hk), rfl⟩
    · rw [ho, integer_append, integer_int, integer_int, hk]
  refine ⟨_, Except.bind_eq_ok_iff.2 ⟨_, Limits.product_eq_ok hlimits l l', fold_eq_ok_iff.2
    ⟨fun e he => ?_, rfl⟩⟩, ?_, fun f => ?_⟩
  · obtain ⟨k, hk, _⟩ := hvalue e he
    exact ⟨_, hk⟩
  · refine isOver_ofEntries (List.forall_mem_map.2 fun e he => ?_)
    obtain ⟨k, hk, _, hbounds⟩ := hvalue e he
    exact ⟨_, ⟨k, rfl, hbounds⟩, congrArg single (valueAt_eq hk)⟩
  · have hf : IsInvariant fun o : Outcome ρ => f o.integer := isInvariant_integer.comp f
    rw [integral_image hf]
    have hcongr : ∀ e ∈ (l.product l').entries,
        f (single (valueAt (Operator.combine (μ := ℚ) .add) e.1)).integer = f e.1.integer := by
      intro e he
      obtain ⟨k, hk, hint, _⟩ := hvalue e he
      rw [valueAt_eq hk, integer_int, hint]
    rw [integral_congr (h := fun o => f o.integer) hcongr, integral_product hf]
    simp only [integer_append]

/-- The mass of an integer in a law of integers. -/
lemma IsOfIntegers.massOf_eq (hl : l.IsOfIntegers lo hi) (k : Int32) :
    l.massOf (.number (.int k)) = l.integral fun o => if o.integer = k.toInt then 1 else 0 := by
  show l.mass _ = _
  rw [mass_eq_integral]
  refine integral_congr fun e he => ?_
  obtain ⟨_, ⟨i, rfl, _⟩, ho⟩ := hl e he
  rw [ho, integer_int]
  exact if_congr (by rw [compare_int, compare_eq_iff_eq]) rfl rfl

/-- A law of integers in which every integer between the bounds has a mass lists these integers, in
ascending order.

**Proof sketch.** Two ascending lists with the same members are equal. An outcome is an integer
between the bounds, so it is in the list; and each integer in the list has a mass that is not zero,
so it is an outcome. -/
theorem IsOfIntegers.keys_eq {lo hi : Nat} (hl : l.IsOfIntegers lo hi) (hle : lo ≤ hi)
    (hhi : hi < 2 ^ 31)
    (hmass : ∀ k : Nat, lo ≤ k → k ≤ hi → l.massOf (.number (.int (.ofNat k))) ≠ 0) :
    l.keys = (List.range (hi - lo + 1)).map fun i => single (.number (.int (.ofNat (lo + i)))) := by
  have hint {k : Nat} (hk : k ≤ hi) : (Int32.ofNat k).toInt = k :=
    Int32.toInt_ofNat_of_lt (lt_of_le_of_lt hk hhi)
  have hascending : ((List.range (hi - lo + 1)).map fun i =>
      (single (.number (.int (.ofNat (lo + i)))) : Outcome ρ)).Pairwise
        fun o p => compare o p = .lt := by
    refine List.pairwise_map.2 (List.pairwise_lt_range.imp_of_mem fun {i j} hi hj hij => ?_)
    rw [List.mem_range] at hi hj
    rw [compare_int, hint (by omega), hint (by omega), compare_lt_iff_lt]
    omega
  refine Table.keys_eq_of_mem_iff hascending fun o => ?_
  rw [List.mem_map]
  constructor
  · intro ho
    obtain ⟨e, he, rfl⟩ := List.mem_map.1 ho
    obtain ⟨_, ⟨i, rfl, hlo, hhi⟩, ho⟩ := hl e he
    refine ⟨i.toInt.toNat - lo, List.mem_range.2 (by omega), ?_⟩
    have hnat : Int32.ofNat (lo + (i.toInt.toNat - lo)) = i := by
      rw [← Int32.toInt_inj, hint (by omega)]
      omega
    rw [ho, hnat]
  · rintro ⟨i, hi, rfl⟩
    rw [List.mem_range] at hi
    obtain ⟨e, he, heq⟩ := exists_entry_of_mass_ne_zero (hmass (lo + i) (by omega) (by omega))
    obtain ⟨_, ⟨j, rfl, _⟩, ho⟩ := hl e he
    rw [ho, compare_int, compare_eq_iff_eq, Int32.toInt_inj] at heq
    rw [← heq, ← ho]
    exact List.mem_map_of_mem he

/-! ## Masses of natural numbers -/

/-- The mass of a natural number. -/
def massAt (l : Law ρ ℚ) (n : Nat) : ℚ := l.massOf (.number (.int (.ofNat n)))

/-- The integral of a sum of functions. -/
lemma integral_sum {ι : Type} (l : Law ρ ℚ) (s : Finset ι) (g : ι → Outcome ρ → ℚ) :
    l.integral (fun o => ∑ i ∈ s, g i o) = ∑ i ∈ s, l.integral (g i) := by
  classical
  induction s using Finset.induction with
  | empty => exact integral_zero l
  | insert i s hi ih => simp only [Finset.sum_insert hi, integral_add, ih]

/-- The integral of a function of a natural number of an outcome, summed up by that number. -/
lemma integral_eq_sum_massAt {number : Outcome ρ → Nat} {s : Finset Nat}
    (hl : l.Each fun o _ => number o ∈ s)
    (hmass : ∀ n ∈ s, ∀ e ∈ l.entries,
      (compare e.1 (single (.number (.int (.ofNat n)))) = .eq ↔ number e.1 = n)) (F : Nat → ℚ) :
    l.integral (fun o => F (number o)) = ∑ n ∈ s, l.massAt n * F n := by
  have hsplit : ∀ e ∈ l.entries, F (number e.1) =
      ∑ n ∈ s, indicator (single (.number (.int (.ofNat n)))) e.1 * F n := by
    intro e he
    rw [Finset.sum_eq_single_of_mem (number e.1) (hl e he) fun n hn hne => ?_]
    · rw [indicator_of_eq ((hmass _ (hl e he) e he).2 rfl), one_mul]
    · rw [indicator_of_ne fun heq => hne ((hmass n hn e he).1 heq).symm, zero_mul]
  rw [integral_congr (g := fun o => F (number o)) (h := fun o =>
    ∑ n ∈ s, indicator (single (.number (.int (.ofNat n)))) o * F n) hsplit, integral_sum]
  refine Finset.sum_congr rfl fun n _ => ?_
  rw [integral_mul_const, ← mass_eq_integral]
  rfl

end Law

namespace Dice

variable {l : Law ρ ℚ}

/-- The integral of a function of the number of dice. -/
theorem integral_countAt_eq_sum (hl : l.Each fun o _ => IsCount o) (F : Nat → ℚ) :
    l.integral (fun o => F (countAt o)) = ∑ n ∈ Finset.range (2 ^ 31), l.massAt n * F n := by
  refine Law.integral_eq_sum_massAt (fun e he => ?_) (fun n hn e he => ?_) F
  · obtain ⟨x, n, ho, hn⟩ := hl e he
    rw [ho, countAt_eq hn, Finset.mem_range]
    exact count_lt hn
  · obtain ⟨x, k, ho, hk⟩ := hl e he
    rw [ho, countAt_eq hk, compare_number_eq_iff, compare_count hk (Finset.mem_range.1 hn),
      compare_eq_iff_eq, Nat.cast_inj]

/-- A number of sides compares with an integer as a natural number. -/
lemma compare_sides {x : Number ρ} {m k : Nat} (h : sides (μ := ℚ) x = .ok m) (hk : k < 2 ^ 31) :
    compare x (.int (.ofNat k)) = compare (m : Int) k := by
  obtain ⟨i, hi, hpos, rfl⟩ := sides_eq_ok_iff.1 h
  exact compare_count (count_eq_ok_iff.2 ⟨i, hi, hpos.le, rfl⟩) hk

/-- The integral of a function of the number of sides. -/
theorem integral_sidesAt_eq_sum (hl : l.Each fun o _ => IsSides o) (F : Nat → ℚ) :
    l.integral (fun o => F (sidesAt o)) = ∑ m ∈ Finset.Ico 1 (2 ^ 31), l.massAt m * F m := by
  refine Law.integral_eq_sum_massAt (fun e he => ?_) (fun m hm e he => ?_) F
  · exact Finset.mem_Ico.2 (hl e he).bounds
  · obtain ⟨x, k, ho, hk⟩ := hl e he
    rw [ho, sidesAt_eq hk, compare_number_eq_iff, compare_sides hk (Finset.mem_Ico.1 hm).2,
      compare_eq_iff_eq, Nat.cast_inj]

end Dice

end DiceCalculus
