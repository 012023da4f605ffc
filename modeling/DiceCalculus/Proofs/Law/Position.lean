import DiceCalculus.Proofs.Law.Maximum

set_option autoImplicit false
set_option relaxedAutoImplicit false

/-!
# Dice by position

A roll with a random number of dice has a die at each position up to the greatest number. The die
is rolled if the number of dice reaches its position, and absent otherwise.

## Main definitions

* `Dice.countAt` — the number of dice that an outcome stands for.
* `Dice.greatestAt` — the greatest number of dice in a law.
* `Dice.reached` — the chance that the number of dice reaches a position.
* `Dice.faceIntegral` — the integral over a die whose number of sides has a law.

## Main results

* `Dice.reach_eq` — the mass with which a position is reached is that chance.
* `Dice.of_laws_eq_ok`, `Dice.laws_isOk_iff` — the dice of a roll, and when there are any.
* `Dice.integral_die` — the integral over a die mixes its faces and its absence.
* `Dice.integral_of_certain_laws` — the dice of a roll whose operands are certain.
-/

namespace DiceCalculus

variable {ρ : Type} [Scalar ρ] {limits : Limits ℚ}

open Outcome

namespace Law

variable {l target : Law ρ ℚ}

/-- A weighted law added to another: masses above zero stay so. -/
lemma pos_addScaled {weight : ℚ} (htarget : target.Each fun _ p => 0 < p) (hweight : 0 < weight)
    (hl : l.Each fun _ p => 0 < p) : (target.addScaled weight l).Each fun _ p => 0 < p :=
  each_addScaled (fun _ _ _ _ h => h) (fun _ _ _ => add_pos) htarget fun e he =>
    mul_pos (hl e he) hweight

end Law

namespace Dice

variable {l l' : Law ρ ℚ} {g : Outcome ρ → ℚ}

/-! ## Numbers of dice -/

/-- The number of dice that an outcome stands for, and zero if it stands for none. -/
def countAt (o : Outcome ρ) : Nat :=
  (do count (μ := ℚ) (← scalar o)).toOption.getD 0

/-- The number of dice of a number that is one. -/
lemma countAt_eq {x : Number ρ} {n : Nat} (h : count (μ := ℚ) x = .ok n) :
    countAt (single (.number x)) = n :=
  Except.getD_toOption (show count (μ := ℚ) x = .ok n from h) 0

/-- Equal outcomes stand for the same number of dice. -/
lemma isCount_congr {o p : Outcome ρ} (h : compare o p = .eq) (ho : IsCount o) :
    IsCount p ∧ countAt o = countAt p := by
  obtain ⟨x, n, rfl, hn⟩ := ho
  obtain ⟨y, rfl, hxy⟩ := exists_of_compare_number_eq h
  have hy := (count_congr hxy).1 hn
  exact ⟨⟨y, n, rfl, hy⟩, by rw [countAt_eq hn, countAt_eq hy]⟩

/-- An outcome that is no number of dice stands for none. -/
lemma countAt_of_not {o : Outcome ρ} (h : ¬IsCount o) : countAt o = 0 := by
  unfold countAt
  cases hx : (do count (μ := ℚ) (← scalar o)) with
  | error e => rfl
  | ok n =>
    obtain ⟨x, hscalar, hn⟩ := Except.bind_eq_ok_iff.1 hx
    exact absurd ⟨x, n, scalar_eq_ok_iff.1 hscalar, hn⟩ h

/-- Whether an outcome is a number of dice does not depend on how it is written. -/
lemma isInvariant_isCount : IsInvariant (IsCount (ρ := ρ)) := fun _ _ h =>
  propext ⟨fun ho => (isCount_congr h ho).1, fun hp => (isCount_congr (Std.OrientedCmp.eq_symm h) hp).1⟩

/-- Whether an outcome is a number of sides does not depend on how it is written. -/
lemma isInvariant_isSides : IsInvariant (IsSides (ρ := ρ)) := by
  have himp {o p : Outcome ρ} (h : compare o p = .eq) (ho : IsSides o) : IsSides p := by
    obtain ⟨x, m, rfl, hm⟩ := ho
    obtain ⟨y, rfl, hxy⟩ := exists_of_compare_number_eq h
    exact ⟨y, m, rfl, (sides_congr hxy).1 hm⟩
  exact fun o p h => propext ⟨himp h, himp (Std.OrientedCmp.eq_symm h)⟩

/-- The number of dice does not depend on how it is written. -/
lemma isInvariant_countAt : IsInvariant (countAt (ρ := ρ)) := by
  intro o p h
  by_cases ho : IsCount o
  · exact (isCount_congr h ho).2
  · have hp : ¬IsCount p := by rwa [← isInvariant_isCount o p h]
    rw [countAt_of_not ho, countAt_of_not hp]

/-- A number of dice compares with an integer as a natural number. -/
lemma compare_count {x : Number ρ} {n k : Nat} (h : count (μ := ℚ) x = .ok n) (hk : k < 2 ^ 31) :
    compare x (.int (.ofNat k)) = compare (n : Int) k := by
  obtain ⟨i, hi, hnonneg, rfl⟩ := count_eq_ok_iff.1 h
  have hxi := (Number.toInt32?_eq_some_iff x i).1 hi
  rw [← Std.TransCmp.congr_left hxi]
  show compare i.toInt (Int32.ofNat k).toInt = _
  rw [Int32.toInt_ofNat_of_lt hk, Int.toNat_of_nonneg hnonneg]

/-- The greatest number of dice in a law. -/
def greatestAt (l : Law ρ ℚ) : Nat := (l.keys.map countAt).foldl max 0

/-- The greatest number of dice is zero or one of the numbers of dice, and none is greater. -/
lemma greatestAt_spec (l : Law ρ ℚ) :
    (greatestAt l = 0 ∨ ∃ e ∈ l.entries, countAt e.1 = greatestAt l) ∧
      ∀ e ∈ l.entries, countAt e.1 ≤ greatestAt l := by
  have hmax : (0 :: l.keys.map countAt).max? = some (greatestAt l) := List.max?_cons'
  obtain ⟨hmem, hle⟩ := List.max?_eq_some_iff.1 hmax
  constructor
  · rcases List.mem_cons.1 hmem with hzero | hmem
    · exact .inl hzero
    · obtain ⟨o, ho, hcount⟩ := List.mem_map.1 hmem
      obtain ⟨e, he, rfl⟩ := List.mem_map.1 ho
      exact .inr ⟨e, he, hcount⟩
  · exact fun e he => hle _ (List.mem_cons_of_mem _ (List.mem_map_of_mem (List.mem_map_of_mem he)))

/-- There is a greatest number of dice exactly if all outcomes are numbers of dice. -/
lemma greatestCount_eq_ok_iff {greatest : Nat} : greatestCount (μ := ℚ) l.keys = .ok greatest ↔
    (l.Each fun o _ => IsCount o) ∧ greatest = greatestAt l := by
  have hcount (o : Outcome ρ) :
      (∃ n, (do count (μ := ℚ) (← scalar o)) = .ok n) ↔ IsCount o := by
    constructor
    · rintro ⟨n, hn⟩
      obtain ⟨x, hx, hn⟩ := Except.bind_eq_ok_iff.1 hn
      exact ⟨x, n, scalar_eq_ok_iff.1 hx, hn⟩
    · rintro ⟨x, n, rfl, hn⟩
      exact ⟨n, hn⟩
  constructor
  · intro h
    obtain ⟨counts, hcounts, h⟩ := Except.bind_eq_ok_iff.1 h
    obtain ⟨hall, rfl⟩ := (Except.mapM_eq_ok_iff_map 0).1 hcounts
    exact ⟨fun e he => (hcount _).1 (hall e.1 (List.mem_map_of_mem he)),
      (Except.pure_eq_ok_iff.1 h).symm⟩
  · rintro ⟨hall, rfl⟩
    refine Except.bind_eq_ok_iff.2 ⟨_, (Except.mapM_eq_ok_iff_map 0).2 ⟨?_, rfl⟩, rfl⟩
    intro o ho
    obtain ⟨e, he, rfl⟩ := List.mem_map.1 ho
    exact (hcount _).2 (hall e he)

/-- Numbers of dice fit into the integers of 32 bits, and so does the greatest. -/
lemma greatestAt_lt (hl : l.Each fun o _ => IsCount o) : greatestAt l < 2 ^ 31 := by
  rcases (greatestAt_spec l).1 with hzero | ⟨e, he, hcount⟩
  · rw [hzero]
    decide
  · obtain ⟨x, n, ho, hn⟩ := hl e he
    rw [← hcount, ho, countAt_eq hn]
    exact count_lt hn

/-! ## Positions -/

/-- The chance that the number of dice reaches a position. -/
def reached (l : Law ρ ℚ) (position : Nat) : ℚ :=
  l.integral fun o => if position ≤ countAt o then 1 else 0

/-- The mass with which a position is reached is the chance of that. -/
theorem reach_eq (hl : l.Each fun o _ => IsCount o) {position : Nat} (hlt : position < 2 ^ 31) :
    reach l position = .ok (reached l position) := by
  have hge : Operator.IsCongruent ρ .ge := Operator.isCongruent_of_isComparison rfl
  have hvalues : (l.product (.certain (.number (.int (.ofNat position))))).Each fun o _ =>
      ∃ a, Operator.combine (μ := ℚ) .ge o.atoms = .ok a := by
    refine Law.each_product (fun o p _ h => (Law.isInvariant_combine_isOk hge o p h).mp)
      (fun _ _ _ h _ => h) fun e he e' he' => ?_
    obtain ⟨x, n, hx, _⟩ := hl e he
    rw [Law.entries_certain, List.mem_singleton] at he'
    rw [hx, he']
    exact ⟨_, rfl⟩
  refine Except.bind_eq_ok_iff.2 ⟨_, Law.fold_eq_ok_iff.2 ⟨hvalues, rfl⟩, congrArg Except.ok ?_⟩
  have hone := isInvariant_indicator (single (.number Number.one) : Outcome ρ)
  show Law.mass _ _ = _
  rw [Law.mass_eq_integral, Law.integral_image hone,
    Law.integral_product (hone.comp_isCongruent (isCongruent_combine hge))]
  refine Law.integral_congr fun e he => ?_
  obtain ⟨x, n, hx, hn⟩ := hl e he
  show (Law.certain _).integral (fun o' => indicator _ (Operator.onOutcomes .ge e.1 o')) = _
  rw [Law.integral_certain, hx, Operator.onOutcomes_number rfl, countAt_eq hn,
    compare_count hn hlt]
  by_cases hle : position ≤ n
  · rw [if_pos hle, show (compare (n : Int) position).isGE = true from by
      simpa [Ordering.isGE_iff_ne_lt, compare_lt_iff_lt] using hle]
    exact indicator_of_eq Std.ReflCmp.compare_self
  · rw [if_neg hle, show (compare (n : Int) position).isGE = false from by
      simpa [compare_lt_iff_lt] using hle]
    exact indicator_of_ne nofun

/-- A chance lies between zero and one. -/
lemma reached_bounds (hl : l.IsNormalized) (position : Nat) :
    0 ≤ reached l position ∧ reached l position ≤ 1 := by
  constructor
  · refine Law.integral_nonneg hl.nonneg fun e _ => ?_
    split <;> norm_num
  · rw [← hl.total]
    refine Law.integral_mono hl.nonneg fun e _ => ?_
    split <;> norm_num

/-- Every position up to the greatest number of dice is reached with a chance. -/
lemma reached_pos (hl : l.Each fun _ p => 0 < p) {position : Nat} (hpos : 0 < position)
    (hle : position ≤ greatestAt l) : 0 < reached l position := by
  obtain ⟨e, he, hcount⟩ := (greatestAt_spec l).1.resolve_left (by omega)
  have hnonneg : ∀ e ∈ l.entries, 0 ≤ if position ≤ countAt e.1 then (1 : ℚ) else 0 := fun e _ => by
    split <;> norm_num
  refine lt_of_le_of_ne (Law.integral_nonneg (fun e he => (hl e he).le) hnonneg) fun hzero => ?_
  have hentry := (Law.integral_eq_zero_iff hl hnonneg).1 hzero.symm e he
  rw [if_pos (hcount ▸ hle)] at hentry
  exact one_ne_zero hentry

/-! ## The dice of a roll -/

/-- The integral over a die whose number of sides has a law. -/
def faceIntegral (l : Law ρ ℚ) (g : Outcome ρ → ℚ) : ℚ := l.integral fun o => (dieOf o).integral g

/-- The dice of a roll, up to the greatest number of dice. -/
theorem of_laws_eq_ok {dice : List (Law ρ ℚ)} (h : laws limits l l' = .ok dice) :
    (l.Each fun o _ => IsCount o) ∧ (l'.Each fun o _ => IsSides o) ∧
      ∃ faces, weightedFaces limits l' = .ok faces ∧
        dice = (List.range (greatestAt l)).map fun i => dieLaw faces (reached l (i + 1)) := by
  obtain ⟨faces, greatest, hfaces, hgreatest, _, rfl⟩ := of_laws h
  obtain ⟨hcount, rfl⟩ := greatestCount_eq_ok_iff.1 hgreatest
  refine ⟨hcount, fun e he => (of_weightedFaces hfaces).1 e he, faces, hfaces, ?_⟩
  refine List.map_congr_left fun i hi => ?_
  have hlt : i + 1 < 2 ^ 31 :=
    lt_of_le_of_lt (List.mem_range.1 hi) (greatestAt_lt hcount)
  rw [reach_eq hcount hlt]
  rfl

/-- Without a limit of outcomes, a roll has dice with laws exactly if its operands are numbers of
dice and of sides. -/
theorem laws_isOk_iff (hlimits : limits.maxOutcomes = none) : (∃ dice, laws limits l l' = .ok dice) ↔
    (l.Each fun o _ => IsCount o) ∧ l'.Each fun o _ => IsSides o := by
  constructor
  · rintro ⟨dice, h⟩
    obtain ⟨hcount, hsides, _⟩ := of_laws_eq_ok h
    exact ⟨hcount, hsides⟩
  · rintro ⟨hcount, hsides⟩
    have hfaces : ∃ faces, weightedFaces limits l' = .ok faces := by
      refine ⟨_, (Except.mapM_eq_ok_iff_map .empty).2 ⟨fun e he => ?_, rfl⟩⟩
      obtain ⟨x, m, hx, hm⟩ := hsides e he
      exact ⟨_, Except.bind_eq_ok_iff.2 ⟨x, scalar_eq_ok_iff.2 hx, Except.bind_eq_ok_iff.2
        ⟨m, hm, Except.bind_eq_ok_iff.2 ⟨_, Limits.uniform_eq_ok hlimits m, rfl⟩⟩⟩⟩
    obtain ⟨faces, hfaces⟩ := hfaces
    refine ⟨_, Except.bind_eq_ok_iff.2 ⟨faces, hfaces, Except.bind_eq_ok_iff.2
      ⟨_, greatestCount_eq_ok_iff.2 ⟨hcount, rfl⟩,
        (Except.mapM_eq_ok_iff_map .empty).2 ⟨fun i hi => ?_, rfl⟩⟩⟩⟩
    have hlt : i + 1 < 2 ^ 31 :=
      lt_of_le_of_lt (List.mem_range.1 hi) (greatestAt_lt hcount)
    exact ⟨_, Except.bind_eq_ok_iff.2 ⟨_, reach_eq hcount hlt, rfl⟩⟩

/-- The integral over the die at a position mixes its faces and its absence. -/
theorem integral_die (hg : IsInvariant g) (hl : l.IsNormalized) {faces : List (Law ρ ℚ)}
    (hfaces : weightedFaces limits l' = .ok faces) (position : Nat) :
    (dieLaw faces (reached l position)).integral g =
      reached l position * faceIntegral l' g + (1 - reached l position) * g (single .absent) := by
  rw [integral_dieLaw hg faces (reached_bounds hl position).2, sum_integral_weightedFaces hg hfaces]
  rfl

/-- The masses of the dice of a roll are above zero.

**Proof sketch.** The law of a die adds up the weighted faces, each by the chance that the die is
reached, and what is left for a die that is not. A face with positive masses by a positive chance
keeps the masses of a sum positive, which is carried through the fold over the faces; the last
summand is only added if its chance is positive. -/
lemma pos_of_laws (hl : l.Each fun _ p => 0 < p) (hl' : l'.Each fun _ p => 0 < p)
    {dice : List (Law ρ ℚ)} (h : laws limits l l' = .ok dice) :
    ∀ die ∈ dice, die.Each fun _ p => 0 < p := by
  obtain ⟨_, _, faces, hfaces, rfl⟩ := of_laws_eq_ok h
  obtain ⟨hsides, hmap⟩ := of_weightedFaces hfaces
  have hempty : Law.Each (fun _ p => 0 < p) (Table.empty : Law ρ ℚ) :=
    fun _ he => absurd he List.not_mem_nil
  have hface : ∀ face ∈ faces, Law.Each (fun _ p => 0 < p) face := by
    rw [hmap, List.forall_mem_map]
    intro e he
    obtain ⟨x, m, ho, hm⟩ := hsides e he
    rw [ho, dieOf_eq hm]
    exact Law.pos_addScaled hempty (hl' e he) Law.isNumeric_uniform.pos
  refine List.forall_mem_map.2 fun i hi => ?_
  have hreached := reached_pos hl (Nat.succ_pos i) (List.mem_range.1 hi)
  have hdie (start : Law ρ ℚ) (hstart : start.Each fun _ p => 0 < p) :
      (faces.foldl (fun die face => Law.addScaled die (reached l (i + 1)) face) start).Each
        fun _ p => 0 < p := by
    clear hmap hfaces h
    induction faces generalizing start with
    | nil => exact hstart
    | cons face faces ih =>
      rw [List.forall_mem_cons] at hface
      exact ih hface.2 _ (Law.pos_addScaled hstart hreached hface.1)
  unfold dieLaw
  by_cases hmissed : Mass.isPositive (1 - reached l (i + 1)) = true
  · rw [if_pos hmissed]
    refine Law.pos_addScaled (hdie _ hempty) ((Mass.isPositive_iff _).1 hmissed) ?_
    unfold Law.Each
    rw [Law.entries_certain]
    exact List.forall_mem_singleton.2 zero_lt_one
  · rw [if_neg hmissed]
    exact hdie _ hempty

/-- If the numbers of dice and of sides are certain, every die of a roll integrates as a fair die
does, and there are as many dice as the number of dice says. -/
theorem integral_of_certain_laws (hl : l.IsNormalized) (hl' : l'.IsNormalized) {n m : Nat}
    (hn : ∀ e ∈ l.entries, countAt e.1 = n) (hm : ∀ e ∈ l'.entries, dieOf e.1 = .uniform m)
    {dice : List (Law ρ ℚ)} (h : laws limits l l' = .ok dice) : dice.length = n ∧
      ∀ die ∈ dice, ∀ g, IsInvariant g → die.integral g = (Law.uniform m : Law ρ ℚ).integral g := by
  obtain ⟨_, _, faces, hfaces, rfl⟩ := of_laws_eq_ok h
  have hgreatest : greatestAt l = n := by
    obtain ⟨e, he⟩ := hl.exists_entry
    have hle := (greatestAt_spec l).2 e he
    rw [hn e he] at hle
    rcases (greatestAt_spec l).1 with hzero | ⟨e', he', hcount⟩
    · omega
    · rw [← hcount, hn e' he']
  refine ⟨by rw [List.length_map, List.length_range, hgreatest], ?_⟩
  refine List.forall_mem_map.2 fun i hi g hg => ?_
  have hreached : reached l (i + 1) = 1 := by
    rw [List.mem_range, hgreatest] at hi
    refine Eq.trans (Law.integral_congr fun e he => ?_) hl.total
    rw [hn e he]
    exact if_pos hi
  rw [integral_die hg hl hfaces, hreached, one_mul, sub_self, zero_mul, add_zero]
  refine Eq.trans (Law.integral_congr fun e he => ?_) (hl'.integral_const _)
  rw [hm e he]

end Dice

end DiceCalculus
