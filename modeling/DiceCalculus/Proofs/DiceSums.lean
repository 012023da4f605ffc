import Mathlib.Algebra.BigOperators.Field
import Mathlib.Algebra.BigOperators.Fin
import Mathlib.Algebra.BigOperators.Intervals
import Mathlib.Data.Fintype.BigOperators
import Mathlib.Data.Fintype.Pi
import DiceCalculus.Proofs.Law.Integers
import DiceCalculus.Proofs.Run.Exec

set_option autoImplicit false
set_option relaxedAutoImplicit false

/-!
# The law of a sum of dice

The law of a roll is computed by adding one die at a time and mixing the sums over the operands. What
it comes to is a count: a total has the share of the lists of faces that add up to it, and a roll
with random operands weights these shares by the masses of its operands.

## Main definitions

* `Dice.ways` — the number of lists of faces that add up to a total.

## Main results

* `Dice.ways_succ` — the first die of a list of faces is chosen on its own.
* `Dice.exists_addDice_ways` — dice added to a law of integers.
* `Dice.exists_sumLaw_ways` — the sum of a fixed number of dice.
* `dice_sum_counts_faces` — the law of a roll whose operands have laws.

## Design

All totals stay within 32 bits, so that faces are added exactly. Nothing is assumed of the arithmetic of
reals, and the laws of the operands need not have mass one.
-/

namespace DiceCalculus

variable {ρ : Type} [Scalar ρ] {limits : Limits ℚ}

open Outcome

namespace Dice

/-! ## Lists of faces with a total -/

/-- The number of lists of faces, one for each of a number of dice and each between one and a number
of sides, that add up to a total. -/
def ways (count sides : Nat) (total : Int) : Nat :=
  ((Fintype.piFinset fun _ : Fin count => Finset.Icc 1 sides).filter
    fun faces => ∑ i, (faces i : Int) = total).card

/-- No dice add up to zero. -/
lemma ways_zero (sides : Nat) (total : Int) : ways 0 sides total = if total = 0 then 1 else 0 := by
  unfold ways
  split
  · next h => simp [h]
  · next h => simp [Ne.symm h]

/-- The first die of a list of faces is chosen on its own. -/
theorem ways_succ (count sides : Nat) (total : Int) :
    ways (count + 1) sides total = ∑ face ∈ Finset.Icc 1 sides, ways count sides (total - face) := by
  unfold ways
  rw [Finset.card_eq_sum_card_fiberwise (f := fun faces => faces 0) (t := Finset.Icc 1 sides)
    fun faces hfaces => Fintype.mem_piFinset.1 (Finset.mem_filter.1 hfaces).1 0]
  refine Finset.sum_congr rfl fun face hface => ?_
  refine Finset.card_nbij' (fun faces => Fin.tail faces) (fun faces => Fin.cons face faces)
    (fun faces hfaces => ?_) (fun faces hfaces => ?_) (fun faces hfaces => ?_) (fun faces _ => ?_)
  · simp only [Finset.coe_filter, Finset.mem_filter, Fintype.mem_piFinset, Set.mem_ofPred_eq,
      Fin.sum_univ_succ] at hfaces ⊢
    obtain ⟨⟨hmem, htotal⟩, hfirst⟩ := hfaces
    refine ⟨fun i => hmem i.succ, ?_⟩
    rw [← htotal, hfirst]
    exact (add_sub_cancel_left _ _).symm
  · simp only [Finset.coe_filter, Finset.mem_filter, Fintype.mem_piFinset, Set.mem_ofPred_eq,
      Fin.sum_univ_succ, Fin.cons_zero, Fin.cons_succ] at hfaces ⊢
    refine ⟨⟨fun i => ?_, ?_⟩, trivial⟩
    · cases i using Fin.cases with
      | zero => exact hface
      | succ i => exact hfaces.1 i
    · rw [hfaces.2]
      exact add_sub_cancel _ _
  · have hfirst : faces 0 = face := (Finset.mem_filter.1 hfaces).2
    show Fin.cons face (Fin.tail faces) = faces
    rw [← hfirst, Fin.cons_self_tail]
  · exact Fin.tail_cons (α := fun _ => Nat) face faces

/-- Every total between all ones and all greatest faces is reached. -/
lemma ways_pos {count sides total : Nat} (hsides : 0 < sides) (hlo : count ≤ total)
    (hhi : total ≤ count * sides) : 0 < ways count sides total := by
  induction count generalizing total with
  | zero =>
    obtain rfl : total = 0 := by omega
    rw [ways_zero, if_pos Nat.cast_zero]
    exact one_pos
  | succ count ih =>
    -- the first die takes what the others cannot reach, and one if there is no such rest
    rw [Nat.succ_mul] at hhi
    have hle : count ≤ count * sides := Nat.le_mul_of_pos_right count hsides
    have hface : max 1 (total - count * sides) ∈ Finset.Icc 1 sides := by
      rw [Finset.mem_Icc]
      omega
    rw [ways_succ]
    refine Finset.sum_pos' (fun _ _ => Nat.zero_le _) ⟨_, hface, ?_⟩
    rw [show (total : Int) - (max 1 (total - count * sides) : Nat) =
      (total - max 1 (total - count * sides) : Nat) by omega]
    exact ih (by omega) (by omega)

/-! ## Sums of dice -/

/-- The share of the lists of faces that add up to a total, over one more die. -/
lemma share_succ (count sides : Nat) (total : Int) :
    1 / (sides : ℚ) * ((List.range sides).map fun i : Nat =>
      (ways count sides (total - (i + 1)) : ℚ) / sides ^ count).sum =
        ways (count + 1) sides total / sides ^ (count + 1) := by
  have hsum : ((List.range sides).map fun i : Nat =>
      (ways count sides (total - (i + 1)) : ℚ) / sides ^ count).sum =
        (∑ i ∈ Finset.range sides, (ways count sides (total - (i + 1)) : ℚ)) / sides ^ count := by
    rw [Finset.sum_div]
    rfl
  have hshift : ∑ face ∈ Finset.Icc 1 sides, ways count sides (total - face) =
      ∑ i ∈ Finset.range sides, ways count sides (total - (i + 1)) := by
    have hadd := Finset.sum_Ico_add' (fun i : Nat => ways count sides (total - i)) 0 sides 1
    push_cast at hadd
    rw [Finset.range_eq_Ico, hadd]
    exact Finset.sum_congr (Finset.ext fun i => by simp) fun _ _ => rfl
  rw [hsum, ways_succ, hshift, pow_succ]
  push_cast
  ring

variable {d sum : Law ρ ℚ}

/-- A number of dice added to a law of integers within 32 bits: a total has the share of the lists of
faces that lead from an integer of the law to it.

**Proof sketch.** By induction over the number of dice. The first die is added by a convolution, and
the rest have the shares of the totals that it leaves. -/
theorem exists_addDice_ways (hlimits : limits.maxOutcomes = none) {count sides lo hi : Nat}
    (hsum : sum.IsOfIntegers lo hi) (hrange : hi + count * sides < 2 ^ 31) :
    ∃ d, addDice limits (.uniform sides) count sum = .ok d ∧
      d.IsOfIntegers (lo + count : Nat) (hi + count * sides : Nat) ∧
      ∀ total : Int, d.integral (fun o => if o.integer = total then 1 else 0) =
        sum.integral fun o => ways count sides (total - o.integer) / sides ^ count := by
  induction count generalizing sum lo hi with
  | zero =>
    refine ⟨sum, rfl, by simpa using hsum, fun total => Law.integral_congr fun e _ => ?_⟩
    simp only [ways_zero, sub_eq_zero, eq_comm (a := total), pow_zero, div_one]
    split <;> simp
  | succ count ih =>
    rw [Nat.succ_mul] at hrange
    have huniform : (.uniform sides : Law ρ ℚ).IsOfIntegers 1 sides :=
      Law.isOfIntegers_uniform (by omega)
    obtain ⟨next, hnext, hint, hintegral⟩ :=
      hsum.exists_operate_add hlimits huniform (by omega) (by omega)
    have hnat : next.IsOfIntegers (lo + 1 : Nat) (hi + sides : Nat) := by
      push_cast
      exact hint
    obtain ⟨d, hd, hdint, hshare⟩ := ih hnat (by omega)
    refine ⟨d, Except.bind_eq_ok_iff.2 ⟨next, hnext, hd⟩, ?_, fun total => ?_⟩
    · rw [Nat.succ_mul]
      convert hdint using 2 <;> omega
    · rw [hshare, hintegral fun k => (ways count sides (total - k) : ℚ) / sides ^ count]
      refine Law.integral_congr fun e _ => ?_
      have hinv : IsInvariant fun o : Outcome ρ =>
          (ways count sides (total - (e.1.integer + o.integer)) : ℚ) / sides ^ count :=
        isInvariant_integer.comp fun k =>
          (ways count sides (total - (e.1.integer + k)) : ℚ) / sides ^ count
      rw [Law.integral_uniform hinv, ← share_succ]
      refine congrArg (1 / (sides : ℚ) * List.sum ·) (List.map_congr_left fun i hi => ?_)
      have hlt := List.mem_range.1 hi
      rw [show (Outcome.face (.ofNat (i + 1)) : Outcome ρ).integer = i + 1 from
        (integer_int _).trans (Law.toInt_face (by omega)), sub_sub]

/-- The sum of a fixed number of dice, if it fits into 32 bits: a total has the share of the lists of
faces that add up to it. -/
theorem exists_sumLaw_ways (hlimits : limits.maxOutcomes = none) {count sides : Nat}
    (hrange : count * sides < 2 ^ 31) : ∃ d : Law ρ ℚ, sumLaw limits count sides = .ok d ∧
      d.IsOfIntegers count (count * sides : Nat) ∧
      ∀ k : Int32, d.massOf (.number (.int k)) = ways count sides k.toInt / sides ^ count := by
  have hstart : (.certain (.number (.int 0)) : Law ρ ℚ).IsOfIntegers (0 : Nat) (0 : Nat) :=
    Law.isOfIntegers_certain 0
  obtain ⟨d, hd, hint, hshare⟩ :=
    exists_addDice_ways hlimits hstart ((zero_add (count * sides)).trans_lt hrange)
  rw [zero_add, zero_add] at hint
  refine ⟨d, Except.bind_eq_ok_iff.2 ⟨_, Limits.uniform_eq_ok hlimits sides, hd⟩, hint, fun k => ?_⟩
  rw [hint.massOf_eq, hshare, Law.integral_certain, integer_int]
  exact congrArg (fun total : Int => (ways count sides total : ℚ) / sides ^ count) (sub_zero _)

/-! ## Rolls with random operands -/

/-- The law of a roll does not depend on how its operands are written. -/
lemma isInvariant_rollLaw (limits : Limits ℚ) : IsInvariant (rollLaw (ρ := ρ) limits) := by
  intro o p h
  have hnone {o : Outcome ρ} (ho : ∀ nm, operands (μ := ℚ) o.atoms ≠ .ok nm) :
      rollLaw limits o = .empty := by
    unfold rollLaw
    cases hop : operands (μ := ℚ) o.atoms with
    | ok nm => exact absurd hop (ho nm)
    | error f => rfl
  by_cases ho : ∃ n m, operands (μ := ℚ) o.atoms = .ok (n, m)
  · obtain ⟨n, m, ho⟩ := ho
    unfold rollLaw
    rw [ho, (operands_congr h).1 ho]
  · rw [hnone fun nm hop => ho ⟨nm.1, nm.2, hop⟩,
      hnone fun nm hop => ho ⟨nm.1, nm.2, (operands_congr h).2 hop⟩]

/-- The operands of a pair of a number of dice and a number of sides. -/
lemma operands_append {o o' : Outcome ρ} (ho : IsCount o) (ho' : IsSides o') :
    operands (μ := ℚ) (o ++ o').atoms = .ok (countAt o, sidesAt o') := by
  obtain ⟨x, n, rfl, hn⟩ := ho
  obtain ⟨y, m, rfl, hm⟩ := ho'
  rw [countAt_eq hn, sidesAt_eq hm]
  exact operands_eq_ok_iff.2 ⟨x, y, rfl, hn, hm⟩

/-- A mixture over operands whose sums have laws has a result. -/
lemma exists_mixSums_of_sumLaw {Q : Atom ρ → Prop} {es : List (Outcome ρ × ℚ)}
    (hes : ∀ e ∈ es, ∃ n m, operands (μ := ℚ) e.1.atoms = .ok (n, m) ∧
      ∃ part : Law ρ ℚ, sumLaw limits n m = .ok part ∧ part.IsOver Q)
    {mixture : Law ρ ℚ} (hmixture : mixture.IsOver Q) :
    ∃ d, mixSums limits es mixture = .ok d ∧ d.IsOver Q := by
  induction es generalizing mixture with
  | nil => exact ⟨mixture, rfl, hmixture⟩
  | cons e es ih =>
    rw [List.forall_mem_cons] at hes
    obtain ⟨⟨n, m, hop, part, hpart, hover⟩, hes⟩ := hes
    obtain ⟨d, hd, hdover⟩ := ih hes (hmixture.addScaled e.2 hover)
    exact ⟨d, Except.bind_eq_ok_iff.2 ⟨_, hop, Except.bind_eq_ok_iff.2 ⟨_, hpart, hd⟩⟩, hdover⟩

/-- The law of a roll whose totals fit into 32 bits mixes the shares of the lists of faces over the
operands.

**Proof sketch.** The mass of a total is an integral over the joint law of the operands, hence over both
laws (`Law.integral_product`), and each of these is a sum over the natural numbers. -/
lemma exists_law_ways (hlimits : limits.maxOutcomes = none) {l l' : Law ρ ℚ}
    (hl : l.Each fun o _ => IsCount o) (hl' : l'.Each fun o _ => IsSides o)
    (hrange : l.Each fun o _ => l'.Each fun o' _ => countAt o * sidesAt o' < 2 ^ 31) :
    ∃ d, law limits l l' = .ok d ∧ (d.IsOver fun a => ∃ k : Int32, a = .number (.int k)) ∧
      ∀ k : Int32, d.massOf (.number (.int k)) =
        ∑ n ∈ Finset.range (2 ^ 31), ∑ m ∈ Finset.Ico 1 (2 ^ 31),
          l.massAt n * l'.massAt m * (ways n m k.toInt / m ^ n) := by
  have hpair : ∀ e ∈ (l.product l').entries, ∃ n m,
      operands (μ := ℚ) e.1.atoms = .ok (n, m) ∧ n * m < 2 ^ 31 := by
    refine Table.forall_key_ofEntries (Q := fun o : Outcome ρ => ∃ n m,
      operands (μ := ℚ) o.atoms = .ok (n, m) ∧ n * m < 2 ^ 31) fun e he => ?_
    obtain ⟨a, ha, he⟩ := List.mem_flatMap.1 he
    obtain ⟨b, hb, rfl⟩ := List.mem_map.1 he
    exact ⟨_, _, operands_append (hl a ha) (hl' b hb), hrange a ha b hb⟩
  have hsums : ∀ e ∈ (l.product l').entries, ∃ n m,
      operands (μ := ℚ) e.1.atoms = .ok (n, m) ∧ ∃ part : Law ρ ℚ, sumLaw limits n m = .ok part ∧
        part.IsOver fun a => ∃ k : Int32, a = .number (.int k) := fun e he => by
    obtain ⟨n, m, hop, hlt⟩ := hpair e he
    obtain ⟨part, hpart, hint, _⟩ := exists_sumLaw_ways (ρ := ρ) hlimits hlt
    refine ⟨n, m, hop, part, hpart, fun e he => ?_⟩
    obtain ⟨a, ⟨k, hk, _⟩, ho⟩ := hint e he
    exact ⟨a, ⟨k, hk⟩, ho⟩
  obtain ⟨d, hd, hover⟩ := exists_mixSums_of_sumLaw hsums (Law.isOver_empty (μ := ℚ))
  refine ⟨d, Except.bind_eq_ok_iff.2 ⟨_, Limits.product_eq_ok hlimits l l', hd⟩, hover, fun k => ?_⟩
  have hinv : IsInvariant fun o : Outcome ρ => (rollLaw limits o).massOf (.number (.int k)) :=
    (isInvariant_rollLaw limits).comp fun d => d.massOf (.number (.int k))
  have hmix : d.massOf (.number (.int k)) =
      (l.product l').integral fun o => (rollLaw limits o).massOf (.number (.int k)) := by
    show d.mass _ = _
    rw [Law.mass_eq_integral, integral_mixSums (isInvariant_indicator _) hd, Law.integral_empty,
      zero_add]
    simp only [← Law.mass_eq_integral]
    rfl
  have hroll : ∀ e ∈ l.entries, ∀ e' ∈ l'.entries,
      (rollLaw limits (e.1 ++ e'.1)).massOf (.number (.int k)) =
        ways (countAt e.1) (sidesAt e'.1) k.toInt / (sidesAt e'.1) ^ countAt e.1 := by
    intro e he e' he'
    obtain ⟨part, hpart, _, hmass⟩ := exists_sumLaw_ways (ρ := ρ) hlimits (hrange e he e' he')
    rw [rollLaw_eq (operands_append (hl e he) (hl' e' he')) hpart, hmass]
  rw [hmix, Law.integral_product hinv]
  calc l.integral (fun o => l'.integral fun o' =>
        (rollLaw limits (o ++ o')).massOf (.number (.int k)))
    _ = l.integral fun o => l'.integral fun o' =>
          (ways (countAt o) (sidesAt o') k.toInt : ℚ) / (sidesAt o') ^ countAt o :=
        Law.integral_congr fun e he => Law.integral_congr fun e' he' => hroll e he e' he'
    _ = ∑ n ∈ Finset.range (2 ^ 31), l.massAt n * l'.integral fun o' =>
          (ways n (sidesAt o') k.toInt : ℚ) / (sidesAt o') ^ n :=
        integral_countAt_eq_sum hl fun n => l'.integral fun o' =>
          (ways n (sidesAt o') k.toInt : ℚ) / (sidesAt o') ^ n
    _ = _ := Finset.sum_congr rfl fun n _ => by
        rw [integral_sidesAt_eq_sum hl' fun m => (ways n m k.toInt : ℚ) / m ^ n, Finset.mul_sum]
        exact Finset.sum_congr rfl fun m _ => (mul_assoc _ _ _).symm

/-- The outcomes of a fixed number of dice are the totals between all ones and all greatest faces. -/
lemma exists_sumLaw_keys (hlimits : limits.maxOutcomes = none) {count sides : Nat}
    (hsides : 0 < sides) (hrange : count * sides < 2 ^ 31) :
    ∃ d : Law ρ ℚ, sumLaw limits count sides = .ok d ∧
      d.keys = (List.range (count * sides - count + 1)).map
        (fun i => single (.number (.int (.ofNat (count + i))))) ∧
      ∀ k : Int32, d.massOf (.number (.int k)) = ways count sides k.toInt / sides ^ count := by
  obtain ⟨d, hd, hint, hmass⟩ := exists_sumLaw_ways (ρ := ρ) hlimits hrange
  refine ⟨d, hd, hint.keys_eq (Nat.le_mul_of_pos_right count hsides) hrange fun k hlo hhi => ?_, hmass⟩
  have hways := ways_pos hsides hlo hhi
  rw [hmass, Int32.toInt_ofNat_of_lt (lt_of_le_of_lt hhi hrange)]
  positivity

end Dice

/-- The law of a roll counts lists of faces. Without a limit of outcomes, a roll whose operands have laws
of numbers of dice and of sides, with no total above 32 bits, has a law; all its outcomes are
integers, and the mass of each mixes, over the operands, the share of the lists of faces that add up
to it. The sum of a fixed number of dice has all totals between all ones and all greatest faces as
outcomes, and no dice have the sum zero. -/
theorem dice_sum_counts_faces {count sides : Meaning ρ ℚ} {l l' : Law ρ ℚ} {s t u : Session ρ ℚ}
    (hcount : count.law.exec s = .done (.ok l, t)) (hsides : sides.law.exec t = .done (.ok l', u))
    (hlimits : u.limits.maxOutcomes = none) (hl : l.Each fun o _ => Dice.IsCount o)
    (hl' : l'.Each fun o _ => Dice.IsSides o)
    (hrange : l.Each fun o _ => l'.Each fun o' _ => Dice.countAt o * Dice.sidesAt o' < 2 ^ 31) :
    (∃ d, (Meaning.dice count sides).law.exec s = .done (.ok d, u) ∧
      (d.IsOver fun a => ∃ k : Int32, a = .number (.int k)) ∧
      ∀ k : Int32, d.massOf (.number (.int k)) =
        ∑ n ∈ Finset.range (2 ^ 31), ∑ m ∈ Finset.Ico 1 (2 ^ 31),
          l.massAt n * l'.massAt m * (Dice.ways n m k.toInt / m ^ n)) ∧
    ∀ limits : Limits ℚ, limits.maxOutcomes = none →
      (∀ n m, 0 < m → n * m < 2 ^ 31 → ∃ d : Law ρ ℚ, Dice.sumLaw limits n m = .ok d ∧
        d.keys = (List.range (n * m - n + 1)).map
          (fun i => single (.number (.int (.ofNat (n + i))))) ∧
        ∀ k : Int32, d.massOf (.number (.int k)) = Dice.ways n m k.toInt / m ^ n) ∧
      ∀ m, Dice.sumLaw limits 0 m = .ok (.certain (.number .zero) : Law ρ ℚ) := by
  refine ⟨?_, fun limits hlimits => ⟨fun n m hm hlt => Dice.exists_sumLaw_keys hlimits hm hlt,
    fun m => Except.bind_eq_ok_iff.2 ⟨_, Limits.uniform_eq_ok hlimits m, rfl⟩⟩⟩
  obtain ⟨d, hd, hover, hmass⟩ := Dice.exists_law_ways hlimits hl hl' hrange
  refine ⟨d, ?_, hover, hmass⟩
  calc (Meaning.dice count sides).law.exec s
    _ = (Run.ofExcept (Dice.law u.limits l l')).exec u :=
        (Run.exec_bind_done hcount).trans (Run.exec_bind_done hsides)
    _ = .done (.ok d, u) := by
        rw [hd, Run.exec_ofExcept]
        rfl

/-- As many coins as a coin shows have a law, which gives one quarter to a total of three.

**Proof sketch.** The theorem is applied twice: to one coin, whose law lists one and two as numbers
of dice, and to as many coins as this law says. The mass of a total of three is computed from the
law that is found. -/
theorem dice_sum_counts_faces_of_coins :
    let s : Session (WithBot ℚ) ℚ := .start ⟨none, none, none, 0⟩
    let coin : Meaning (WithBot ℚ) ℚ := .dice (.literal (.int 1)) (.literal (.int 2))
    let coins : Meaning (WithBot ℚ) ℚ := .dice coin (.literal (.int 2))
    ∃ d, coins.law.exec s = .done (.ok d, s) ∧ d.massOf (.number (.int 3)) = 1 / 4 := by
  intro s coin coins
  have hone : (Meaning.literal (.int 1)).law.exec s = .done (.ok (.certain (.number (.int 1))), s) := rfl
  have htwo : (Meaning.literal (.int 2)).law.exec s = .done (.ok (.certain (.number (.int 2))), s) := rfl
  have heach {P : Outcome (WithBot ℚ) → Prop} {i : Int32} (h : P (single (.number (.int i)))) :
      (Law.certain (.number (.int i)) : Law (WithBot ℚ) ℚ).Each fun o _ => P o := by
    unfold Law.Each
    rw [Law.entries_certain]
    exact List.forall_mem_singleton.2 h
  have hsides : (Law.certain (.number (.int 2)) : Law (WithBot ℚ) ℚ).Each fun o _ => Dice.IsSides o :=
    heach ⟨.int 2, 2, rfl, rfl⟩
  obtain ⟨⟨l, hl, -⟩, -⟩ := dice_sum_counts_faces hone htwo rfl (heach ⟨.int 1, 1, rfl, rfl⟩) hsides
    (heach (heach (by decide +kernel)))
  -- the number of dice is one or two
  have hkeys : l.keys = [single (.number (.int 1)), single (.number (.int 2))] := by
    have hcomputed : (match coin.law.exec s with
        | .done (.ok l, _) => l.keys
        | _ => []) = [single (.number (.int 1)), single (.number (.int 2))] := by decide +kernel
    rwa [hl] at hcomputed
  have hcounts {P : Outcome (WithBot ℚ) → Prop} (h₁ : P (single (.number (.int 1))))
      (h₂ : P (single (.number (.int 2)))) : l.Each fun o _ => P o := by
    have hall : ∀ o ∈ l.keys, P o := by simp [hkeys, h₁, h₂]
    exact List.forall_mem_map.1 hall
  obtain ⟨⟨d, hd, -⟩, -⟩ := dice_sum_counts_faces hl htwo rfl
    (hcounts ⟨.int 1, 1, rfl, rfl⟩ ⟨.int 2, 2, rfl, rfl⟩) hsides
    (hcounts (heach (by decide +kernel)) (heach (by decide +kernel)))
  have hquarter : (match coins.law.exec s with
      | .done (.ok d, _) => d.massOf (.number (.int 3))
      | _ => 0) = 1 / 4 := by decide +kernel
  rw [hd] at hquarter
  exact ⟨d, hd, hquarter⟩

end DiceCalculus
