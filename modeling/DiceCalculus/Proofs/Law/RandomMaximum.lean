import DiceCalculus.Proofs.Law.Dependence

set_option autoImplicit false
set_option relaxedAutoImplicit false

/-!
# The greatest die of a roll with random operands

The greatest die of a roll is sampled by drawing the operands first and the dice after them. Its law
is computed from the laws of the single dice, as if they were independent. The two agree only for
some operands, which are found by asking for the chance that all dice show at most one, or at most
zero.

## Main definitions

* `Dice.greatestIntegral` — the integral over the greatest die of a sampled roll.
* `Outcome.atMost` — one where no component lies above a bound and zero elsewhere.
* `Dice.IsSeparable` — the operands for which the dice may be taken to be independent.

## Main results

* `Law.IsNumeric.integral_eq` — laws of numbers with the same masses have the same integrals.
* `Dice.exists_greatestLaw` — the greatest die of a sampled roll has a law.
* `Dice.isSeparable_of_integral_eq`, `Dice.integral_eq_of_isSeparable` — the law of the maximum is
  that law exactly for separable operands.
-/

namespace DiceCalculus

variable {ρ : Type} [Scalar ρ] {limits : Limits ℚ}

open Outcome

/-! ## Laws and their masses -/

namespace Law

variable {l l' : Law ρ ℚ} {g : Outcome ρ → ℚ}

/-- The mass of an outcome does not depend on how its numbers are written. -/
lemma isInvariant_mass (l : Law ρ ℚ) : IsInvariant l.mass := fun o p h => by
  rw [mass_eq_integral, mass_eq_integral]
  refine integral_congr fun e _ => ?_
  unfold indicator
  rw [Std.TransCmp.congr_right h]

/-- The outcomes of a law whose entries are above zero have masses above zero. -/
lemma mass_pos_of_mem (hl : l.Each fun _ p => 0 < p) {e : Outcome ρ × ℚ} (he : e ∈ l.entries) :
    0 < l.mass e.1 := by
  refine lt_of_le_of_ne (mass_nonneg (fun e he => (hl e he).le) e.1) fun hzero => ?_
  rw [mass_eq_integral] at hzero
  have hself := (integral_eq_zero_iff hl fun e' _ => indicator_nonneg e.1 e'.1).1 hzero.symm e he
  rw [indicator_of_eq Std.ReflCmp.compare_self] at hself
  exact one_ne_zero hself

/-- An outcome with a mass equals one of the outcomes of the law. -/
lemma exists_entry_of_mass_ne_zero {l : Law ρ ℚ} {o : Outcome ρ} (h : l.mass o ≠ 0) :
    ∃ e ∈ l.entries, compare e.1 o = .eq := by
  by_contra hnone
  push Not at hnone
  rw [mass_eq_integral] at h
  refine h (List.sum_eq_zero (List.forall_mem_map.2 fun e he => ?_))
  rw [indicator_of_ne (hnone e he), mul_zero]

/-- Laws of numbers with the same masses have the same integrals.

**Proof sketch.** Each integral is spread over the outcomes of the other law: an outcome is replaced
by those equal to it, in the proportion of their masses. -/
theorem IsNumeric.integral_eq (hl : l.IsNumeric) (hl' : l'.IsNumeric)
    (hmass : ∀ x, l.massOf (.number x) = l'.massOf (.number x)) (hg : IsInvariant g) :
    l.integral g = l'.integral g := by
  have hspread {k k' : Law ρ ℚ} (hk : k.IsNumeric)
      (hmass : ∀ x, k.massOf (.number x) = k'.massOf (.number x)) : k.integral g =
        k.integral fun o => k'.integral fun o' => indicator o o' * (g o / k.mass o) := by
    refine integral_congr fun e he => ?_
    have hpos := mass_pos_of_mem hk.pos he
    obtain ⟨⟨x, hx⟩, -⟩ := hk e he
    have heq : k.mass e.1 = k'.mass e.1 := hx ▸ hmass x
    rw [integral_mul_const, ← mass_eq_integral, ← heq, mul_div_cancel₀ _ hpos.ne']
  rw [hspread hl hmass, hspread hl' fun x => (hmass x).symm, integral_comm]
  refine integral_congr fun e' he' => integral_congr fun e he => ?_
  by_cases h : compare e'.1 e.1 = .eq
  · obtain ⟨⟨x, hx⟩, -⟩ := hl e he
    rw [indicator_of_eq h, indicator_of_eq (Std.OrientedCmp.eq_symm h), hg _ _ h,
      isInvariant_mass l' _ _ h, hx]
    exact congrArg (fun p => 1 * (g _ / p)) (hmass x)
  · rw [indicator_of_ne h, indicator_of_ne fun h' => h (Std.OrientedCmp.eq_symm h'), zero_mul,
      zero_mul]

/-- What integrates over a law to integrals over laws of numbers is the integral over a law of
numbers. -/
lemma exists_mixture {k : Outcome ρ → (Outcome ρ → ℚ) → ℚ} (hl : l.Each fun o p => 0 < p ∧
      ∃ d : Law ρ ℚ, d.IsNumeric ∧ ∀ g, IsInvariant g → d.integral g = k o g) :
    ∃ d : Law ρ ℚ, d.IsNumeric ∧ ∀ g, IsInvariant g → d.integral g = l.integral fun o => k o g := by
  unfold Each at hl
  unfold integral
  generalize l.entries = es at hl ⊢
  induction es with
  | nil => exact ⟨.empty, isNumeric_empty, fun _ _ => rfl⟩
  | cons e es ih =>
    rw [List.forall_mem_cons] at hl
    obtain ⟨⟨hpos, d, hd, hint⟩, hes⟩ := hl
    obtain ⟨rest, hrest, hint'⟩ := ih hes
    refine ⟨rest.addScaled e.2 d, hrest.addScaled hpos hd, fun g hg => ?_⟩
    refine (integral_addScaled hg rest e.2 d).trans ?_
    rw [List.map_cons, List.sum_cons, hint g hg, add_comm]
    exact congrArg (_ + ·) (hint' g hg)

end Law

/-! ## Bounds -/

namespace Outcome

/-- One component exceeds a bound exactly if the greatest does. -/
lemma compare_greatest_gt_iff (as : List (Atom ρ)) (c : Atom ρ) :
    compare (Atom.greatest as) c = .gt ↔ ∃ a ∈ as, compare a c = .gt := by
  have hmax (a b : Atom ρ) : compare (Atom.max a b) c = .gt ↔
      compare a c = .gt ∨ compare b c = .gt := by
    unfold Atom.max
    split
    · next hgt => exact ⟨.inl, fun h => h.elim id fun hb => Std.TransCmp.gt_trans hgt hb⟩
    · next hle =>
      refine ⟨.inr, fun h => h.elim (fun ha => ?_) id⟩
      exact Std.TransCmp.gt_of_isGE_of_gt (by
        rw [Std.OrientedCmp.isGE_iff_isLE]
        exact Ordering.isLE_iff_ne_gt.2 hle) ha
  have hfold (a : Atom ρ) : compare (as.foldl Atom.max a) c = .gt ↔
      compare a c = .gt ∨ ∃ b ∈ as, compare b c = .gt := by
    induction as generalizing a with
    | nil => simp
    | cons b as ih => rw [List.foldl_cons, ih, hmax, List.exists_mem_cons_iff, or_assoc]
  have habsent : compare Atom.absent c ≠ .gt := by cases c <;> exact nofun
  exact (hfold .absent).trans (or_iff_right habsent)

/-- One where no component lies above a bound and zero elsewhere. -/
def atMost (v : Number ρ) (o : Outcome ρ) : ℚ :=
  if compare (Atom.greatest o.atoms) (.number v) = .gt then 0 else 1

variable {v : Number ρ}

/-- Whether a bound holds does not depend on how numbers are written. -/
lemma isInvariant_atMost (v : Number ρ) : IsInvariant (atMost v) := fun o p h => by
  unfold atMost
  rw [Std.TransCmp.congr_left (isCongruent_greatest o p h)]

/-- A bound holds of the greater of two outcomes if it holds of both. -/
lemma atMost_greater (v x : Number ρ) (o : Outcome ρ) :
    atMost v (greater (single (.number x)) o) = atMost v (single (.number x)) * atMost v o := by
  have hgreater : compare (Atom.greatest (greater (single (.number x)) o).atoms) (.number v) = .gt ↔
      compare (Atom.greatest (single (.number x) : Outcome ρ).atoms) (.number v) = .gt ∨
        compare (Atom.greatest o.atoms) (.number v) = .gt := by
    have hatoms : (greater (single (.number x)) o).atoms = [Atom.greatest (.number x :: o.atoms)] := rfl
    have hsingle : (single (.number x) : Outcome ρ).atoms = [.number x] := rfl
    rw [hatoms, hsingle]
    simp only [compare_greatest_gt_iff, List.mem_singleton, exists_eq_left, List.exists_mem_cons_iff]
  unfold atMost
  by_cases hx : compare (Atom.greatest (single (.number x) : Outcome ρ).atoms) (.number v) = .gt
  · rw [if_pos (hgreater.2 (.inl hx)), if_pos hx, zero_mul]
  · rw [if_neg hx, one_mul]
    exact if_congr (hgreater.trans (or_iff_right hx)) rfl rfl

/-- A bound holds of a number that does not lie above it. -/
lemma atMost_number (v x : Number ρ) :
    atMost v (single (.number x)) = if compare x v = .gt then 0 else 1 := rfl

/-- A bound is not negative. -/
lemma atMost_nonneg (v : Number ρ) (o : Outcome ρ) : 0 ≤ atMost v o := by
  unfold atMost
  split <;> norm_num

/-- The value of a maximum over nothing lies below every integer. -/
lemma compare_negInfinity_int (i : Int32) :
    compare (Number.negInfinity : Number ρ) (.int i) = .lt :=
  Scalar.negInfinity_lt_ofInt32 i

/-- An integer bound holds of a maximum over nothing. -/
lemma atMost_negInfinity (i : Int32) :
    atMost (.int i : Number ρ) (single (.number .negInfinity)) = 1 := by
  rw [atMost_number, compare_negInfinity_int]
  exact if_neg nofun

end Outcome

/-! ## The sides of a die -/

namespace Dice

variable {l l' d : Law ρ ℚ} {g : Outcome ρ → ℚ}

/-- The number of sides that an outcome stands for, and zero if it stands for none. -/
def sidesAt (o : Outcome ρ) : Nat := (do sides (μ := ℚ) (← scalar o)).toOption.getD 0

/-- The number of sides of a number that is one. -/
lemma sidesAt_eq {x : Number ρ} {m : Nat} (h : sides (μ := ℚ) x = .ok m) :
    sidesAt (single (.number x)) = m :=
  Except.getD_toOption (show sides (μ := ℚ) x = .ok m from h) 0

/-- A number of sides does not depend on how it is written. -/
lemma sidesAt_congr {o : Outcome ρ} {x : Number ρ} {m : Nat}
    (h : compare o (single (.number x)) = .eq) (hm : sides (μ := ℚ) x = .ok m) : sidesAt o = m := by
  obtain ⟨y, rfl, hxy⟩ := exists_of_compare_number_eq (Std.OrientedCmp.eq_symm h)
  exact sidesAt_eq ((sides_congr hxy).1 hm)

/-- The die that a number of sides stands for is fair. -/
lemma IsSides.dieOf_eq_uniform {o : Outcome ρ} (h : IsSides o) :
    dieOf o = Law.uniform (sidesAt o) := by
  obtain ⟨x, m, rfl, hm⟩ := h
  rw [dieOf_eq hm, sidesAt_eq hm]

/-- The die that an outcome stands for has a law of numbers. -/
lemma isNumeric_dieOf (o : Outcome ρ) : (dieOf o).IsNumeric := by
  unfold dieOf
  cases (do sides (μ := ℚ) (← scalar o)) with
  | error e => exact Law.isNumeric_empty
  | ok m => exact Law.isNumeric_uniform

/-- A number of sides is positive and fits into the integers of 32 bits. -/
lemma IsSides.bounds {o : Outcome ρ} (h : IsSides o) : 0 < sidesAt o ∧ sidesAt o < 2 ^ 31 := by
  obtain ⟨x, m, rfl, hm⟩ := h
  rw [sidesAt_eq hm]
  exact sides_bounds hm

/-- The chance that a die of the sides that an outcome stands for shows at most a bound. -/
def chanceAtMost (v : Number ρ) (o : Outcome ρ) : ℚ := (dieOf o).integral (atMost v)

/-- A face compares with an integer as a natural number. -/
lemma compare_face {i : Nat} (hi : i + 1 < 2 ^ 31) {k : Nat} (hk : k < 2 ^ 31) :
    compare (Number.int (UInt32.ofNat (i + 1)).toInt32 : Number ρ) (.int (.ofNat k)) =
      compare ((i + 1 : Nat) : Int) k := by
  have hface : (UInt32.ofNat (i + 1)).toInt32 = Int32.ofNat (i + 1) := rfl
  show compare (UInt32.ofNat (i + 1)).toInt32.toInt (Int32.ofNat k).toInt = _
  rw [hface, Int32.toInt_ofNat_of_lt hi, Int32.toInt_ofNat_of_lt hk]

/-- The chance of a die to show at most a number counts the faces up to it. -/
lemma chanceAtMost_eq {o : Outcome ρ} (ho : IsSides o) {k : Nat} (hk : k < 2 ^ 31)
    (hle : k ≤ sidesAt o) :
    chanceAtMost (.int (.ofNat k)) o = k / sidesAt o := by
  have hbounds := ho.bounds
  unfold chanceAtMost
  rw [ho.dieOf_eq_uniform, Law.integral_uniform (isInvariant_atMost _), one_div, inv_mul_eq_div]
  have hface (i : Nat) (hi : i ∈ List.range (sidesAt o)) :
      atMost (.int (.ofNat k) : Number ρ) (.face (.ofNat (i + 1))) = if i < k then 1 else 0 := by
    have hi' := List.mem_range.1 hi
    refine (atMost_number _ _).trans ?_
    rw [compare_face (by omega) hk]
    by_cases hik : i < k
    · rw [if_pos hik, if_neg (by rw [compare_gt_iff_gt]; omega)]
    · rw [if_neg hik, if_pos (by rw [compare_gt_iff_gt]; omega)]
  obtain ⟨j, hj⟩ := Nat.exists_eq_add_of_le hle
  have hlow : ∀ i ∈ List.range k, (if i < k then (1 : ℚ) else 0) = 1 := fun i hi =>
    if_pos (List.mem_range.1 hi)
  have hhigh : ∀ i ∈ List.range j, (if k + i < k then (1 : ℚ) else 0) = 0 := fun i _ =>
    if_neg (by omega)
  rw [List.map_congr_left hface, hj, List.range_add, List.map_append, List.sum_append,
    List.map_congr_left hlow, List.map_map]
  simp [Function.comp_def]

/-- The chance to show at most a number is not negative. -/
lemma chanceAtMost_nonneg (v : Number ρ) (o : Outcome ρ) : 0 ≤ chanceAtMost v o :=
  Law.integral_nonneg (isNumeric_dieOf o).nonneg fun e _ => atMost_nonneg v e.1

/-! ## The greatest die of a sampled roll -/

/-- The integral over the greatest die of a sampled roll: the operands are drawn first, and then as
many fair dice as they say. -/
def greatestIntegral (l l' : Law ρ ℚ) (g : Outcome ρ → ℚ) : ℚ :=
  l.integral fun o => l'.integral fun o' =>
    Law.maximumIntegral g (List.replicate (countAt o) (dieOf o')) (single (.number .negInfinity))

/-- The greatest die of a sampled roll averages over its faces. -/
lemma greatestIntegral_eq_average (hg : IsInvariant g) (hcount : l.Each fun o _ => IsCount o)
    (hsides : l'.Each fun o _ => IsSides o) :
    greatestIntegral l l' g = l.integral fun o => l'.integral fun o' =>
      average (fun xs => g (single (.number (xs.foldl Number.max .negInfinity)))) (o ++ o') := by
  refine Law.integral_congr fun e he => Law.integral_congr fun e' he' => ?_
  obtain ⟨x, n, hx, hn⟩ := hcount e he
  obtain ⟨y, m, hy, hm⟩ := hsides e' he'
  have hdice : ∀ die ∈ List.replicate n (Law.uniform m : Law ρ ℚ), ∀ h, IsInvariant h →
      die.integral h = (Law.uniform m : Law ρ ℚ).integral h := fun die hdie h _ => by
    rw [List.eq_of_mem_replicate hdie]
  rw [hx, hy, average_eq _ hn hm, countAt_eq hn, dieOf_eq hm,
    Law.maximumIntegral_eq_rollAverage hg hdice, List.length_replicate]

/-- The greatest die of a sampled roll has a law of numbers. -/
theorem exists_greatestLaw (hl : l.IsNumeric) (hl' : l'.IsNumeric) : ∃ d : Law ρ ℚ, d.IsNumeric ∧
    ∀ g, IsInvariant g → d.integral g = greatestIntegral l l' g := by
  refine Law.exists_mixture fun e he => ⟨(hl e he).2, ?_⟩
  refine Law.exists_mixture fun e' he' => ⟨(hl' e' he').2, ?_⟩
  have hfree : (⟨none, none, none, 0⟩ : Limits ℚ).maxOutcomes = none := rfl
  obtain ⟨d, hd⟩ := Law.exists_maximum hfree (List.replicate (countAt e.1) (dieOf e'.1))
  refine ⟨d, Law.isNumeric_of_maximum (fun die hdie => ?_) hd, fun g hg =>
    Law.integral_maximum hg hd⟩
  rw [List.eq_of_mem_replicate hdie]
  exact (isNumeric_dieOf e'.1).pos

/-- The integral of one over the greatest die of a sampled roll. -/
lemma greatestIntegral_one (hone : l.IsNormalized) (hone' : l'.IsNormalized)
    (hsides : l'.Each fun o _ => IsSides o) : greatestIntegral l l' (fun _ => 1) = 1 := by
  refine Eq.trans (Law.integral_congr fun e _ => ?_) (hone.integral_const 1)
  refine Eq.trans (Law.integral_congr fun e' he' => ?_) (hone'.integral_const 1)
  have hdie : (dieOf e'.1).integral (fun _ => 1) = 1 := by
    rw [(hsides e' he').dieOf_eq_uniform]
    exact (Law.isNormalized_uniform (hsides e' he').bounds.1).total
  have hmul : ∀ (x : Number ρ) (o : Outcome ρ), (1 : ℚ) = 1 * 1 := fun _ _ => (one_mul 1).symm
  refine (Law.maximumIntegral_of_mul hmul _ _).trans ?_
  rw [List.map_replicate, List.prod_replicate, hdie, one_pow, one_mul]

/-- The chance that all dice of a sampled roll show at most a bound. -/
lemma greatestIntegral_atMost (i : Int32) : greatestIntegral l l' (atMost (.int i)) =
    l.integral fun o => l'.integral fun o' => chanceAtMost (.int i) o' ^ countAt o := by
  refine Law.integral_congr fun e _ => Law.integral_congr fun e' _ => ?_
  rw [Law.maximumIntegral_of_mul (atMost_greater _), atMost_negInfinity, one_mul,
    List.map_replicate, List.prod_replicate]
  rfl

/-- The chance that the maximum of the dice of a roll is at most a bound, by the law of the maximum. -/
lemma integral_atMost (hl : l.IsNormalized) {dice : List (Law ρ ℚ)}
    (h : laws limits l l' = .ok dice) (hd : Law.maximum limits dice = .ok d) (i : Int32) :
    d.integral (atMost (.int i)) =
      chanceApart l (l'.integral (chanceAtMost (.int i))) (greatestAt l) := by
  have hinv := isInvariant_atMost (.int i : Number ρ)
  obtain ⟨-, -, faces, hfaces, rfl⟩ := of_laws_eq_ok h
  rw [Law.integral_maximum hinv hd, Law.maximumIntegral_of_mul (atMost_greater _),
    atMost_negInfinity, one_mul, List.map_map]
  refine congrArg List.prod (List.map_congr_left fun j _ => ?_)
  refine (integral_die hinv hl hfaces (j + 1)).trans ?_
  have habsent : atMost (.int i : Number ρ) (single .absent) = 1 := rfl
  rw [habsent]
  show _ * l'.integral (chanceAtMost (.int i)) + _ = _
  ring

/-- Up to the greatest number of dice, dice of one roll are all its dice. -/
lemma chanceTogether_greatestAt (l : Law ρ ℚ) (a : ℚ) :
    chanceTogether l a (greatestAt l) = l.integral fun o => a ^ countAt o :=
  Law.integral_congr fun e he => by rw [min_eq_left ((greatestAt_spec l).2 e he)]

/-- A position is reached for certain exactly if every number of dice reaches it. -/
lemma reached_eq_one_iff (hl : l.IsNumeric) (hone : l.IsNormalized) (position : Nat) :
    reached l position = 1 ↔ ∀ e ∈ l.entries, position ≤ countAt e.1 := by
  have hnonneg : ∀ e ∈ l.entries, 0 ≤ 1 - if position ≤ countAt e.1 then (1 : ℚ) else 0 :=
    fun e _ => by split <;> norm_num
  have hmissed : l.integral (fun o => 1 - if position ≤ countAt o then (1 : ℚ) else 0) =
      1 - reached l position := by
    rw [Law.integral_sub, hone.total]
    rfl
  rw [← sub_eq_zero, ← neg_eq_zero, neg_sub, ← hmissed, Law.integral_eq_zero_iff
    (g := fun o => 1 - if position ≤ countAt o then (1 : ℚ) else 0) hl.pos hnonneg]
  refine forall₂_congr fun e _ => ?_
  by_cases hle : position ≤ countAt e.1 <;> simp [hle]

/-! ## Separable operands -/

/-- The dice of a roll may be taken to be independent, as far as the greatest is concerned. Either
there is at most one of them, or there is one number of sides. Then the number of dice is one of two
successive numbers, or all dice have one side and there is at least one of them. -/
def IsSeparable (l l' : Law ρ ℚ) : Prop :=
  (∀ e ∈ l.entries, countAt e.1 ≤ 1) ∨
    ∃ m, (∀ e' ∈ l'.entries, sidesAt e'.1 = m) ∧
      ((∃ n, ∀ e ∈ l.entries, n ≤ countAt e.1 ∧ countAt e.1 ≤ n + 1) ∨
        m = 1 ∧ ∀ e ∈ l.entries, 1 ≤ countAt e.1)

section OfEq

variable (hl : l.IsNumeric) (hl' : l'.IsNumeric) (hone : l.IsNormalized) (hone' : l'.IsNormalized)
  {dice : List (Law ρ ℚ)} (h : laws limits l l' = .ok dice) (hd : Law.maximum limits dice = .ok d)

include hone' h in
/-- The chance to show at most a number is a chance. -/
lemma integral_chanceAtMost_bounds {k : Nat} (hk : k ≤ 1) :
    0 ≤ l'.integral (chanceAtMost (.int (.ofNat k))) ∧
      l'.integral (chanceAtMost (.int (.ofNat k))) ≤ 1 := by
  obtain ⟨-, hsides, -⟩ := of_laws_eq_ok h
  refine ⟨Law.integral_nonneg hone'.nonneg fun e _ => chanceAtMost_nonneg _ e.1, ?_⟩
  rw [← hone'.total]
  refine Law.integral_mono hone'.nonneg fun e he => ?_
  have hpos := (hsides e he).bounds.1
  rw [chanceAtMost_eq (hsides e he) (by omega) (by omega), div_le_one (by exact_mod_cast hpos)]
  exact_mod_cast show k ≤ sidesAt e.1 by omega

include hl hone hone' h hd in
/-- If the law of the maximum gives a bound the chance that it has for a sampled roll, neither the
number of dice nor the number of sides that the dice share makes a difference. -/
lemma shared_of_integral_eq {k : Nat} (hk : k ≤ 1)
    (heq : d.integral (atMost (.int (.ofNat k))) =
      greatestIntegral l l' (atMost (.int (.ofNat k)))) :
    chanceApart l (l'.integral (chanceAtMost (.int (.ofNat k)))) (greatestAt l) =
        chanceTogether l (l'.integral (chanceAtMost (.int (.ofNat k)))) (greatestAt l) ∧
      ∀ e ∈ l.entries, l'.integral (chanceAtMost (.int (.ofNat k))) ^ countAt e.1 =
        l'.integral fun o' => chanceAtMost (.int (.ofNat k)) o' ^ countAt e.1 := by
  obtain ⟨ha, ha'⟩ := integral_chanceAtMost_bounds hone' h hk
  rw [integral_atMost hone h hd, greatestIntegral_atMost] at heq
  have hdice := chanceApart_le_chanceTogether hone ha ha' (greatestAt l)
  generalize hq : chanceAtMost (.int (.ofNat k) : Number ρ) = q at *
  have hq₀ (o' : Outcome ρ) : 0 ≤ q o' := hq ▸ chanceAtMost_nonneg _ o'
  have hsides (e : Outcome ρ × ℚ) : 0 ≤ l'.integral (fun o' => q o' ^ countAt e.1) -
      l'.integral q ^ countAt e.1 := sub_nonneg.2 (Law.pow_integral_le hone' hq₀ _)
  have hgain : l.integral (fun o => l'.integral (fun o' => q o' ^ countAt o) -
      l'.integral q ^ countAt o) = 0 := by
    refine le_antisymm ?_ (Law.integral_nonneg hone.nonneg fun e _ => hsides e)
    rw [Law.integral_sub, ← chanceTogether_greatestAt, ← heq]
    exact sub_nonpos.2 hdice
  have hzero := (Law.integral_eq_zero_iff (g := fun o => l'.integral (fun o' => q o' ^ countAt o) -
    l'.integral q ^ countAt o) hl.pos fun e _ => hsides e).1 hgain
  refine ⟨?_, fun e he => (sub_eq_zero.1 (hzero e he)).symm⟩
  rw [Law.integral_sub, ← chanceTogether_greatestAt, ← heq] at hgain
  exact sub_eq_zero.1 hgain

include hl hl' hone hone' h hd

/-- If the law of the maximum gives the numbers up to one the chance that they have for a sampled
roll, there is only one number of sides, unless there is at most one die. -/
lemma sides_of_integral_eq (hgreatest : 2 ≤ greatestAt l)
    (heq : d.integral (atMost (.int 1)) = greatestIntegral l l' (atMost (.int 1))) :
    0 < l'.integral (chanceAtMost (.int 1)) ∧ ∀ e' ∈ l'.entries,
      (sidesAt e'.1 : ℚ) = 1 / l'.integral (chanceAtMost (.int 1)) := by
  obtain ⟨-, hsides, -⟩ := of_laws_eq_ok h
  obtain ⟨-, hpow⟩ := shared_of_integral_eq hl hone hone' h hd (k := 1) le_rfl heq
  have hchance : ∀ e' ∈ l'.entries,
      chanceAtMost (.int 1) e'.1 = 1 / (sidesAt e'.1 : ℚ) := fun e' he' => by
    rw [← Nat.cast_one]
    exact chanceAtMost_eq (hsides e' he') (k := 1) (by omega) (hsides e' he').bounds.1
  have hpos : 0 < l'.integral (chanceAtMost (.int 1)) := by
    refine lt_of_le_of_ne (integral_chanceAtMost_bounds hone' h (k := 1) le_rfl).1 fun hnone => ?_
    obtain ⟨e', he'⟩ := hone'.exists_entry
    have hentry := (Law.integral_eq_zero_iff hl'.pos fun e' _ => chanceAtMost_nonneg _ e'.1).1
      hnone.symm e' he'
    have hpos' : (0 : ℚ) < sidesAt e'.1 := by exact_mod_cast (hsides e' he').bounds.1
    rw [hchance e' he'] at hentry
    exact (one_div_pos.2 hpos').ne' hentry
  obtain ⟨e, he, hcount⟩ := (greatestAt_spec l).1.resolve_left (by omega)
  have hconst := Law.eq_of_pow_integral_eq hone' hl'.pos (chanceAtMost_nonneg (.int 1)) hpos
    (by omega) (hpow e he)
  refine ⟨hpos, fun e' he' => ?_⟩
  rw [← hconst e' he', hchance e' he', one_div_one_div]

omit hl' in
/-- If the law of the maximum gives the numbers up to a bound the chance that they have for a sampled
roll, every position before the last is reached, unless the bound excludes all dice before it. -/
lemma count_of_integral_eq {k : Nat} (hk : k ≤ 1) {position : Nat}
    (hlt : position + 1 < greatestAt l)
    (hless : l'.integral (chanceAtMost (.int (.ofNat k))) < 1)
    (hpow : l'.integral (chanceAtMost (.int (.ofNat k))) ^ position ≠ 0)
    (heq : d.integral (atMost (.int (.ofNat k))) =
      greatestIntegral l l' (atMost (.int (.ofNat k)))) :
    ∀ e ∈ l.entries, position + 1 ≤ countAt e.1 := by
  obtain ⟨ha, ha'⟩ := integral_chanceAtMost_bounds hone' h hk
  obtain ⟨happart, -⟩ := shared_of_integral_eq hl hone hone' h hd hk heq
  refine (reached_eq_one_iff hl hone (position + 1)).1 ?_
  exact reached_eq_one_of_eq hone ha ha' hlt hless hpow
    (fun i hi => reached_pos hl.pos (Nat.succ_pos i) hi) happart

/-- If the law of the maximum gives the numbers up to zero and up to one the chances that they have
for a sampled roll, the operands are separable.

**Proof sketch.** Unless there is at most one die, the chance of at most one is the same for all
numbers of sides, so there is only one of them. If the sides are more than one, every position before
the last is reached for certain, hence only two numbers of dice are possible. If there is one side,
the chance of at most zero is that of no die, and it is computed only if there is always a die. -/
theorem isSeparable_of_integral_eq
    (hzero : d.integral (atMost (.int 0)) = greatestIntegral l l' (atMost (.int 0)))
    (hunit : d.integral (atMost (.int 1)) = greatestIntegral l l' (atMost (.int 1))) :
    IsSeparable l l' := by
  obtain ⟨-, hsides, -⟩ := of_laws_eq_ok h
  have hle := (greatestAt_spec l).2
  by_cases hsmall : greatestAt l ≤ 1
  · exact .inl fun e he => (hle e he).trans hsmall
  obtain ⟨hpos, hsidesAt⟩ := sides_of_integral_eq hl hl' hone hone' h hd (by omega) hunit
  obtain ⟨e₁, he₁⟩ := hone'.exists_entry
  refine .inr ⟨sidesAt e₁.1, fun e' he' => ?_, ?_⟩
  · exact_mod_cast (hsidesAt e' he').trans (hsidesAt e₁ he₁).symm
  by_cases hcertain : l'.integral (chanceAtMost (.int 1)) = 1
  · -- a die with one side never shows zero
    have hm : (sidesAt e₁.1 : ℚ) = 1 := by rw [hsidesAt e₁ he₁, hcertain, one_div_one]
    have hnone : l'.integral (chanceAtMost (.int (.ofNat 0))) = 0 := by
      refine Eq.trans (Law.integral_congr fun e' he' => ?_) (hone'.integral_const 0)
      rw [chanceAtMost_eq (hsides e' he') (by omega) (by omega), Nat.cast_zero, zero_div]
    have hcount : ∀ e ∈ l.entries, 0 + 1 ≤ countAt e.1 :=
      count_of_integral_eq hl hone hone' h hd zero_le_one (by omega)
        (by rw [hnone]; exact zero_lt_one) (by rw [pow_zero]; exact one_ne_zero) hzero
    exact .inr ⟨by exact_mod_cast hm, hcount⟩
  · -- every position before the last is reached for certain
    obtain ⟨last, hlast⟩ := Nat.exists_eq_add_of_le' (show 2 ≤ greatestAt l by omega)
    have hless := lt_of_le_of_ne (integral_chanceAtMost_bounds hone' h (k := 1) le_rfl).2 hcertain
    have hcount : ∀ e ∈ l.entries, last + 1 ≤ countAt e.1 :=
      count_of_integral_eq hl hone hone' h hd (k := 1) le_rfl (by omega) hless
        (pow_pos hpos last).ne' hunit
    exact .inl ⟨last + 1, fun e he => ⟨hcount e he, by have := hle e he; omega⟩⟩

end OfEq

section OfSeparable

variable (hg : IsInvariant g) (hone : l.IsNormalized) (hone' : l'.IsNormalized)

include hone in
/-- The integral of a function of the number of dice, if that is one of two successive numbers. -/
lemma integral_countAt {n : Nat}
    (hn : ∀ e ∈ l.entries, n ≤ countAt e.1 ∧ countAt e.1 ≤ n + 1) (f : Nat → ℚ) :
    l.integral (fun o => f (countAt o)) =
      reached l (n + 1) * f (n + 1) + (1 - reached l (n + 1)) * f n := by
  have hsplit : ∀ e ∈ l.entries, f (countAt e.1) =
      f n + (if n + 1 ≤ countAt e.1 then (1 : ℚ) else 0) * (f (n + 1) - f n) := fun e he => by
    obtain ⟨hle, hle'⟩ := hn e he
    by_cases hlast : n + 1 ≤ countAt e.1
    · rw [if_pos hlast, le_antisymm hle' hlast]
      ring
    · rw [if_neg hlast, show countAt e.1 = n by omega]
      ring
  rw [Law.integral_congr (g := fun o => f (countAt o)) (h := fun o => f n +
    (if n + 1 ≤ countAt o then (1 : ℚ) else 0) * (f (n + 1) - f n)) hsplit, Law.integral_add,
    Law.integral_mul_const, hone.integral_const]
  show f n + reached l (n + 1) * (f (n + 1) - f n) = _
  ring

include hg hone in
/-- If the number of dice is one of two successive numbers, all dice but the last are rolled for
certain, and the law of the maximum mixes the maxima of the two numbers of dice.

**Proof sketch.** There are `n` or `n + 1` laws. All dice up to the `n`th are rolled for certain, so
that their laws are that of one die (`hbefore`). The last one, if there is one, is rolled with the
chance of the greater number of dice and is absent otherwise, which leaves the maximum of the others
(`hlast`). The integral over the maximum is thus the mixture of the two, which is the integral over
the number of dice. -/
lemma integral_of_successive {dice : List (Law ρ ℚ)} (h : laws limits l l' = .ok dice)
    (hd : Law.maximum limits dice = .ok d) {die : Law ρ ℚ}
    (hdie : ∀ g, IsInvariant g → die.integral g = faceIntegral l' g) {n : Nat}
    (hn : ∀ e ∈ l.entries, n ≤ countAt e.1 ∧ countAt e.1 ≤ n + 1) :
    d.integral g = l.integral fun o =>
      Law.maximumIntegral g (List.replicate (countAt o) die) (single (.number .negInfinity)) := by
  obtain ⟨-, -, faces, hfaces, rfl⟩ := of_laws_eq_ok h
  have hgreatest : greatestAt l = n ∨ greatestAt l = n + 1 := by
    obtain ⟨e, he⟩ := hone.exists_entry
    have hle := (greatestAt_spec l).2 e he
    have he' := hn e he
    rcases (greatestAt_spec l).1 with hnone | ⟨e', he', hcount⟩
    · omega
    · have hn' := hn e' he'
      omega
  have hcertain : ∀ i < n, reached l (i + 1) = 1 := fun i hi => by
    refine Eq.trans (Law.integral_congr fun e he => if_pos ?_) hone.total
    have hle := (hn e he).1
    omega
  have hbefore : ∀ face ∈ (List.range n).map (fun i => dieLaw faces (reached l (i + 1))),
      ∀ g, IsInvariant g → face.integral g = die.integral g := by
    refine List.forall_mem_map.2 fun i hi g hg => ?_
    rw [integral_die hg hone hfaces, hcertain i (List.mem_range.1 hi), hdie g hg]
    ring
  have hlast (x : Number ρ) : Law.maximumIntegral g [dieLaw faces (reached l (n + 1))]
      (single (.number x)) = reached l (n + 1) * Law.maximumIntegral g [die] (single (.number x)) +
        (1 - reached l (n + 1)) * g (single (.number x)) := by
    have hinner : IsInvariant fun o => g (greater (single (.number x)) o) :=
      fun _ _ h => hg _ _ (compare_greater Std.ReflCmp.compare_self h)
    show Law.integral _ _ = _ * Law.integral _ _ + _
    exact (integral_die hinner hone hfaces (n + 1)).trans (by rw [← hdie _ hinner, greater_absent]; rfl)
  rw [Law.integral_maximum hg hd, integral_countAt hone hn fun k =>
    Law.maximumIntegral g (List.replicate k die) (single (.number .negInfinity))]
  rcases hgreatest with hgreatest | hgreatest
  · have hnone : reached l (n + 1) = 0 := by
      refine Eq.trans (Law.integral_congr fun e he => if_neg ?_) (hone.integral_const 0)
      have hle := (greatestAt_spec l).2 e he
      omega
    rw [hgreatest, hnone, zero_mul, zero_add, sub_zero, one_mul,
      Law.maximumIntegral_eq_replicate hg hbefore, List.length_map, List.length_range]
  · have hinv := Law.isInvariant_maximumIntegral hg [dieLaw faces (reached l (n + 1))]
    rw [hgreatest, List.range_succ, List.map_append, List.map_singleton, Law.maximumIntegral_append,
      Law.maximumIntegral_eq_replicate hinv hbefore, List.length_map, List.length_range,
      Law.maximumIntegral_mix hlast, ← Law.maximumIntegral_append, ← List.replicate_succ']

/-- There is a law with the integrals of a die whose number of sides has a law. -/
lemma exists_faceLaw {dice : List (Law ρ ℚ)} (h : laws limits l l' = .ok dice) :
    ∃ die : Law ρ ℚ, ∀ g, IsInvariant g → die.integral g = faceIntegral l' g := by
  obtain ⟨-, -, faces, hfaces, -⟩ := of_laws_eq_ok h
  refine ⟨dieLaw faces 1, fun g hg => ?_⟩
  rw [integral_dieLaw hg faces le_rfl, sum_integral_weightedFaces hg hfaces, sub_self, zero_mul,
    add_zero, one_mul]
  rfl

include hg in
/-- A die with one side shows one. -/
lemma integral_dieOf_of_one {o : Outcome ρ} (ho : IsSides o) (hm : sidesAt o = 1) :
    (dieOf o).integral g = g (single (.number (.int 1))) := by
  rw [ho.dieOf_eq_uniform, hm, Law.integral_uniform hg, Nat.cast_one, div_one, one_mul,
    List.range_one, List.map_singleton, List.sum_singleton]
  rfl

include hg in
/-- The greatest of dice with one side is one, if one of them is rolled for certain. -/
lemma maximumIntegral_of_one {die : Law ρ ℚ} {dice : List (Law ρ ℚ)}
    (hdie : ∀ g, IsInvariant g → die.integral g = g (single (.number (.int 1))))
    (hdice : ∀ die ∈ dice, ∃ r : ℚ, ∀ g, IsInvariant g → die.integral g =
      r * g (single (.number (.int 1))) + (1 - r) * g (single .absent)) :
    Law.maximumIntegral g (die :: dice) (single (.number .negInfinity)) =
      g (single (.number (.int 1))) := by
  have hinner := Law.isInvariant_maximumIntegral hg dice
  have hfirst : IsInvariant fun o : Outcome ρ => Law.maximumIntegral g dice
      (greater (single (.number .negInfinity)) o) := fun _ _ h =>
    hinner _ _ (compare_greater Std.ReflCmp.compare_self h)
  refine (hdie _ hfirst).trans ?_
  have hmax : Number.max .negInfinity (.int 1 : Number ρ) = .int 1 := by
    unfold Number.max
    rw [compare_negInfinity_int]
    exact if_neg nofun
  rw [greater_number, hmax]
  refine Law.maximumIntegral_of_fixed hg fun face hface h hh => ?_
  obtain ⟨r, hr⟩ := hdice face hface
  have hone : IsInvariant fun o : Outcome ρ => h (greater (single (.number (.int 1))) o) :=
    fun _ _ hop => hh _ _ (compare_greater Std.ReflCmp.compare_self hop)
  have hself : Number.max (.int 1 : Number ρ) (.int 1) = .int 1 := by
    unfold Number.max
    exact ite_self _
  rw [hr _ hone, greater_number, hself, greater_absent]
  ring

end OfSeparable

/-- The law of the maximum of the dice of a roll with separable operands is that of the greatest die
of a sampled roll.

**Proof sketch.** A function of the greatest die is integrated with one law for all dice: that of a
die whose number of sides has a law. If there are two numbers of sides there is at most one die. -/
theorem integral_eq_of_isSeparable (hg : IsInvariant g) (hone : l.IsNormalized)
    (hone' : l'.IsNormalized) {dice : List (Law ρ ℚ)} (h : laws limits l l' = .ok dice)
    (hd : Law.maximum limits dice = .ok d) (hseparable : IsSeparable l l') :
    d.integral g = greatestIntegral l l' g := by
  obtain ⟨-, hsides, faces, hfaces, hdice⟩ := of_laws_eq_ok h
  obtain ⟨die, hdie⟩ := exists_faceLaw h
  rcases hseparable with hsmall | ⟨m, hm, ⟨n, hn⟩ | ⟨rfl, hcount⟩⟩
  · rw [integral_of_successive hg hone h hd hdie (n := 0) fun e he => ⟨Nat.zero_le _, hsmall e he⟩]
    refine Law.integral_congr fun e he => ?_
    rcases Nat.le_one_iff_eq_zero_or_eq_one.1 (hsmall e he) with hcount | hcount
    · rw [hcount]
      exact (hone'.integral_const _).symm
    · rw [hcount]
      exact hdie _ fun _ _ h => hg _ _ (compare_greater Std.ReflCmp.compare_self h)
  · rw [integral_of_successive hg hone h hd hdie hn]
    refine Law.integral_congr fun e he => ?_
    refine Eq.trans (hone'.integral_const _).symm (Law.integral_congr fun e' he' => ?_)
    have hface : ∀ face ∈ List.replicate (countAt e.1) (dieOf e'.1), ∀ g, IsInvariant g →
        face.integral g = die.integral g := fun face hface g hg => by
      rw [List.eq_of_mem_replicate hface, hdie g hg, (hsides e' he').dieOf_eq_uniform, hm e' he']
      refine Eq.trans (hone'.integral_const _).symm (Law.integral_congr fun e'' he'' => ?_)
      rw [(hsides e'' he'').dieOf_eq_uniform, hm e'' he'']
    rw [Law.maximumIntegral_eq_replicate hg hface, List.length_replicate]
  · have hface (g : Outcome ρ → ℚ) (hg : IsInvariant g) :
        faceIntegral l' g = g (single (.number (.int 1))) := by
      refine Eq.trans (Law.integral_congr fun e' he' => ?_) (hone'.integral_const _)
      exact integral_dieOf_of_one hg (hsides e' he') (hm e' he')
    have hsample : greatestIntegral l l' g = g (single (.number (.int 1))) := by
      refine Eq.trans (Law.integral_congr fun e he => ?_) (hone.integral_const _)
      refine Eq.trans (Law.integral_congr fun e' he' => ?_) (hone'.integral_const _)
      have hdieOf (g : Outcome ρ → ℚ) (hg : IsInvariant g) :=
        integral_dieOf_of_one hg (hsides e' he') (hm e' he')
      obtain ⟨k, hk⟩ := Nat.exists_eq_add_of_le' (hcount e he)
      rw [hk, List.replicate_succ]
      refine maximumIntegral_of_one hg hdieOf fun face hface => ⟨1, fun g hg => ?_⟩
      rw [List.eq_of_mem_replicate hface, hdieOf g hg]
      ring
    obtain ⟨e, he⟩ := hone.exists_entry
    obtain ⟨k, hk⟩ := Nat.exists_eq_add_of_le' ((hcount e he).trans ((greatestAt_spec l).2 e he))
    have hfirst : reached l 1 = 1 :=
      (Law.integral_congr fun e he => if_pos (hcount e he)).trans hone.total
    rw [hsample, Law.integral_maximum hg hd, hdice, hk, List.range_succ_eq_map, List.map_cons]
    refine maximumIntegral_of_one hg (fun g hg => ?_) (List.forall_mem_map.2 fun i _ =>
      ⟨reached l (i + 1), fun g hg => ?_⟩)
    · rw [integral_die hg hone hfaces, hfirst, hface g hg]
      ring
    · rw [integral_die hg hone hfaces, hface g hg]

end Dice

end DiceCalculus
