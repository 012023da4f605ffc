import DiceCalculus.Proofs.Conservation
import DiceCalculus.Proofs.Law.RandomMaximum

set_option autoImplicit false
set_option relaxedAutoImplicit false

/-!
# What a law gives mass to

A law that is computed from others gives mass above zero to whatever outcomes with mass above zero
combine to: no operation drops an outcome.

## Main definitions

* `Law.Supports` — an outcome has mass above zero.

## Main results

* `Law.supports_operate` — the value of an operator.
* `Dice.supports_law` — the sum of a roll.
* `Dice.supports_laws` — the faces of a roll, and the absence of the dice beyond them.
* `Law.supports_maximum` — the greatest of a list of numbers, some of them absent.
* `Law.supports_mixture` — the branches of an `if`.
-/

namespace DiceCalculus

variable {ρ : Type} [Scalar ρ] {limits : Limits ℚ}

open Outcome

namespace Outcome

/-- The greater of two outcomes with one component. -/
lemma greater_single (a b : Atom ρ) : greater (single a) (single b) = single (Atom.max a b) := by
  show single (Atom.max (Atom.max .absent a) b) = single (Atom.max a b)
  cases a <;> rfl

end Outcome

namespace Law

variable {l l' d : Law ρ ℚ} {g : Outcome ρ → ℚ}

/-- A law gives mass above zero to an outcome with one component. -/
def Supports (l : Law ρ ℚ) (a : Atom ρ) : Prop := 0 < l.massOf a

/-- An outcome has mass above zero if the integral of its indicator is. -/
lemma supports_iff (l : Law ρ ℚ) (a : Atom ρ) :
    l.Supports a ↔ 0 < l.integral (indicator (single a)) := by
  rw [← mass_eq_integral]
  rfl

/-- An outcome with mass above zero is an outcome, maybe in another form. -/
lemma Supports.exists_entry {a : Atom ρ} (h : l.Supports a) :
    ∃ e ∈ l.entries, compare e.1 (single a) = .eq := exists_entry_of_mass_ne_zero (ne_of_gt h)

/-- A constant has mass. -/
lemma supports_certain (a : Atom ρ) : (certain a : Law ρ ℚ).Supports a := by
  rw [supports_iff, integral_certain, indicator_of_eq Std.ReflCmp.compare_self]
  exact one_pos

/-- Every face of a fair die has mass. -/
lemma supports_uniform {sides i : Nat} (hi : i < sides) :
    (uniform sides : Law ρ ℚ).Supports (.number (.int (UInt32.ofNat (i + 1)).toInt32)) := by
  have hface : (1 : ℚ) ≤ ((List.range sides).map fun j => indicator
      (single (.number (.int (UInt32.ofNat (i + 1)).toInt32))) (.face (.ofNat (j + 1)) : Outcome ρ)).sum := by
    refine List.single_le_sum (List.forall_mem_map.2 fun j _ => indicator_nonneg _ _) 1 ?_
    exact List.mem_map.2 ⟨i, List.mem_range.2 hi, indicator_of_eq Std.ReflCmp.compare_self⟩
  have hsides : (0 : ℚ) < sides := by exact_mod_cast Nat.zero_lt_of_lt hi
  rw [supports_iff, integral_uniform (isInvariant_indicator _)]
  exact mul_pos (one_div_pos.2 hsides) (lt_of_lt_of_le one_pos hface)

/-- An integral over two laws is above zero if the function is, at a pair of outcomes with mass. -/
lemma integral_integral_pos (hl : l.Each fun _ p => 0 ≤ p) (hl' : l'.Each fun _ p => 0 ≤ p)
    {f : Outcome ρ → Outcome ρ → ℚ} (hleft : ∀ o', IsInvariant fun o => f o o')
    (hright : ∀ o, IsInvariant (f o)) (hf : ∀ o o', 0 ≤ f o o') {a a' : Atom ρ}
    (ha : l.Supports a) (ha' : l'.Supports a') (hpos : 0 < f (single a) (single a')) :
    0 < l.integral fun o => l'.integral (f o) := by
  refine integral_pos hl (fun p q h => ?_) (fun p => integral_nonneg hl' fun e _ => hf p e.1) ha
    (integral_pos hl' (hright _) (hf _) ha' hpos)
  exact integral_congr fun e _ => hleft e.1 p q h

/-! ## Operators -/

/-- The value of an operator has mass if its operands have. -/
theorem supports_operate {op : Operator} (hop : op.IsCongruent ρ) (hl : l.Each fun _ p => 0 ≤ p)
    (hl' : l'.Each fun _ p => 0 ≤ p) (h : operate limits op l l' = .ok d) {x y z : Number ρ}
    (hx : l.Supports (.number x)) (hy : l'.Supports (.number y)) (hz : op.value? x y = some z) :
    d.Supports (.number z) := by
  have hinv := isInvariant_indicator (single (.number z))
  rw [supports_iff, integral_operate hop hinv h]
  refine integral_integral_pos hl hl' (Operator.isInvariant_onOutcomes_left hop hinv)
    (Operator.isInvariant_onOutcomes_right hop hinv) (fun _ _ => indicator_nonneg _ _) hx hy ?_
  rw [Operator.onOutcomes_number hz, indicator_of_eq Std.ReflCmp.compare_self]
  exact one_pos

/-! ## Maxima -/

/-- The integral of a function of a maximum is above zero if the function is, at the greatest of
components with mass. -/
lemma maximumIntegral_pos (hg : IsInvariant g) (hnonneg : ∀ o, 0 ≤ g o) {ls : List (Law ρ ℚ)}
    (hls : ∀ l ∈ ls, l.Each fun _ p => 0 ≤ p) {as : List (Atom ρ)}
    (has : List.Forall₂ Supports ls as) {a : Atom ρ} (h : 0 < g (single (as.foldl Atom.max a))) :
    0 < maximumIntegral g ls (single a) := by
  have hmaximum {ls : List (Law ρ ℚ)} (hls : ∀ l ∈ ls, l.Each fun _ p => 0 ≤ p) (o : Outcome ρ) :
      0 ≤ maximumIntegral g ls o := by
    induction ls generalizing o with
    | nil => exact hnonneg o
    | cons l ls ih =>
      rw [List.forall_mem_cons] at hls
      exact integral_nonneg hls.1 fun e _ => ih hls.2 _
  induction has generalizing a with
  | nil => exact h
  | @cons l b ls as hb _ ih =>
    rw [List.forall_mem_cons] at hls
    refine integral_pos hls.1 (fun o p hop => ?_) (fun o => hmaximum hls.2 _) hb ?_
    · exact isInvariant_maximumIntegral hg ls _ _ (compare_greater Std.ReflCmp.compare_self hop)
    · rw [greater_single]
      exact ih hls.2 h

/-- The greatest of components with mass has mass. -/
theorem supports_maximum {ls : List (Law ρ ℚ)} (hls : ∀ l ∈ ls, l.Each fun _ p => 0 ≤ p)
    {as : List (Atom ρ)} (has : List.Forall₂ Supports ls as) (h : maximum limits ls = .ok d) :
    d.Supports (as.foldl Atom.max (.number .negInfinity)) := by
  have hinv := isInvariant_indicator (single (as.foldl Atom.max (.number .negInfinity)))
  rw [supports_iff, integral_maximum hinv h]
  refine maximumIntegral_pos hinv (indicator_nonneg _) hls has ?_
  rw [indicator_of_eq Std.ReflCmp.compare_self]
  exact one_pos

/-! ## Mixtures -/

/-- A number that a branch has mass at has mass if the test may choose the branch. -/
theorem supports_mixture {test : Law ρ ℚ} (htest : test.Each fun _ p => 0 ≤ p)
    (hl : Mass.isPositive (Builtin.chanceOfNonzero test) = true → l.Each fun _ p => 0 ≤ p)
    (hl' : Mass.isPositive (test.massOf (.number .zero)) = true → l'.Each fun _ p => 0 ≤ p)
    {a : Atom ρ} (h : (0 < Builtin.chanceOfNonzero test ∧ l.Supports a) ∨
      (0 < test.massOf (.number .zero) ∧ l'.Supports a)) : (test.mixture l l').Supports a := by
  have hterm {p : ℚ} {d : Law ρ ℚ} (hp : 0 ≤ p)
      (hd : Mass.isPositive p = true → d.Each fun _ p => 0 ≤ p) :
      0 ≤ p * d.integral (indicator (single a)) := by
    rcases hp.eq_or_lt with rfl | hp
    · rw [zero_mul]
    · exact mul_nonneg hp.le (integral_nonneg (hd ((Mass.isPositive_iff p).2 hp)) fun e _ =>
        indicator_nonneg _ e.1)
  have hnonzero := hterm (chanceOfNonzero_nonneg htest) hl
  have hzero := hterm (massOf_nonneg htest _) hl'
  rw [supports_iff, integral_mixture_eq (isInvariant_indicator _) htest]
  rcases h with ⟨hchance, ha⟩ | ⟨hchance, ha⟩
  · exact add_pos_of_pos_of_nonneg (mul_pos hchance ((supports_iff l a).1 ha)) hzero
  · exact add_pos_of_nonneg_of_pos hnonzero (mul_pos hchance ((supports_iff l' a).1 ha))

/-- A test may come out zero if a number that is zero has mass. -/
lemma massOf_zero_pos {test : Law ρ ℚ} {x : Number ρ} (hx : test.Supports (.number x))
    (hzero : x.isZero = true) : 0 < test.massOf (.number .zero) := by
  have hcompare := (compare_number_eq_iff x .zero).2 ((Number.isZero_iff x).1 hzero)
  exact lt_of_lt_of_eq hx (isInvariant_mass test _ _ hcompare)

/-- A test may come out other than zero if a number that is not zero has mass. -/
lemma chanceOfNonzero_pos {test : Law ρ ℚ} (htest : test.Each fun _ p => 0 ≤ p) {x : Number ρ}
    (hx : test.Supports (.number x)) (hzero : x.isZero = false) :
    0 < Builtin.chanceOfNonzero test := by
  have hcompare : compare (single (.number x)) (single (.number .zero)) ≠ .eq := fun h => by
    rw [(Number.isZero_iff x).2 ((compare_number_eq_iff x .zero).1 h)] at hzero
    cases hzero
  rw [chanceOfNonzero_eq]
  refine integral_pos htest ((isInvariant_indicator _).comp (1 - ·)) (fun o => ?_) hx ?_
  · unfold indicator
    split <;> norm_num
  · rw [indicator_of_ne hcompare]
    norm_num

end Law

namespace Dice

variable {l l' d : Law ρ ℚ}

/-! ## Sums of dice -/

/-- An average of a function that is not negative. -/
lemma average_nonneg {F : List (Number ρ) → ℚ} (hF : ∀ xs, 0 ≤ F xs) (o : Outcome ρ) :
    0 ≤ average F o := by
  unfold average
  split
  · exact rollAverage_nonneg fun _ _ => hF _
  · exact le_rfl

/-- The sum of the faces of a roll has mass if its operands have. -/
theorem supports_law (hadd : Operator.IsCongruent ρ .add) (hl : l.Each fun _ p => 0 ≤ p)
    (hl' : l'.Each fun _ p => 0 ≤ p) (h : law limits l l' = .ok d) {x y : Number ρ} {n m : Nat}
    (hx : l.Supports (.number x)) (hn : count (μ := ℚ) x = .ok n) (hy : l'.Supports (.number y))
    (hm : sides (μ := ℚ) y = .ok m) {shown : List UInt32} (hshown : IsRoll n m shown) :
    d.Supports (.number ((shown.map fun face => .int face.toInt32).foldl (· + ·) .zero)) := by
  have hnonneg (o : Outcome ρ) := indicator_nonneg (single (.number
    ((shown.map fun face => Number.int face.toInt32).foldl (· + ·) .zero))) o
  rw [Law.supports_iff, integral_law hadd (isInvariant_indicator _) h]
  refine Law.integral_integral_pos hl hl' (fun o' => (isInvariant_average _).append_left o')
    (fun o => (isInvariant_average _).append_right o) (fun o o' => average_nonneg (fun _ =>
      hnonneg _) _) hx hy ?_
  rw [average_eq _ hn hm]
  refine lt_of_le_of_ne (rollAverage_nonneg fun _ _ => hnonneg _) fun hzero => ?_
  have hface := (rollAverage_eq_zero_iff fun _ _ => hnonneg _).1 hzero.symm shown hshown
  rw [indicator_of_eq Std.ReflCmp.compare_self] at hface
  exact one_ne_zero hface

/-! ## Dice by position -/

/-- The die of a number of sides does not depend on how the number is written. -/
lemma dieOf_congr {o p : Outcome ρ} (h : compare o p = .eq) : dieOf o = dieOf p := by
  have hempty {o : Outcome ρ} (ho : ¬IsSides o) : dieOf o = .empty := by
    unfold dieOf
    cases hx : (do sides (μ := ℚ) (← scalar o)) with
    | error e => rfl
    | ok m =>
      obtain ⟨x, hscalar, hm⟩ := Except.bind_eq_ok_iff.1 hx
      exact absurd ⟨x, m, scalar_eq_ok_iff.1 hscalar, hm⟩ ho
  by_cases hp : IsSides p
  · obtain ⟨y, m, rfl, hm⟩ := hp
    obtain ⟨x, rfl, hxy⟩ := exists_of_compare_number_eq (Std.OrientedCmp.eq_symm h)
    rw [dieOf_eq hm, dieOf_eq ((sides_congr hxy).1 hm)]
  · have ho : ¬IsSides o := fun ho => hp ((isInvariant_isSides o p h).to_iff.1 ho)
    rw [hempty ho, hempty hp]

/-- A position up to a number of dice with mass is reached with a chance. -/
lemma reached_pos_of_supports (hl : l.Each fun _ p => 0 ≤ p) {x : Number ρ} {n : Nat}
    (hx : l.Supports (.number x)) (hn : count (μ := ℚ) x = .ok n) {position : Nat}
    (hle : position ≤ n) : 0 < reached l position := by
  refine Law.integral_pos hl (fun o p h => ?_) (fun o => ?_) hx ?_
  · rw [isInvariant_countAt o p h]
  · split <;> norm_num
  · rw [countAt_eq hn, if_pos hle]
    exact one_pos

/-- A position beyond a number of dice with mass is not reached with a chance. -/
lemma reached_lt_one_of_supports (hl : l.IsNormalized) {x : Number ρ} {n : Nat}
    (hx : l.Supports (.number x)) (hn : count (μ := ℚ) x = .ok n) {position : Nat}
    (hlt : n < position) : reached l position < 1 := by
  have hmissed : 0 < l.integral fun o => 1 - if position ≤ countAt o then 1 else 0 := by
    refine Law.integral_pos hl.nonneg (fun o p h => ?_) (fun o => ?_) hx ?_
    · rw [isInvariant_countAt o p h]
    · split <;> norm_num
    · rw [countAt_eq hn, if_neg (by omega)]
      norm_num
  rw [Law.integral_sub, hl.total] at hmissed
  exact sub_pos.1 hmissed

/-- A face of a die has mass at every position up to a number of dice with mass. -/
lemma supports_dieLaw_face (hl : l.IsNormalized) (hl' : l'.Each fun _ p => 0 ≤ p)
    {faces : List (Law ρ ℚ)} (hfaces : weightedFaces limits l' = .ok faces) {x y : Number ρ}
    {n m : Nat} (hx : l.Supports (.number x)) (hn : count (μ := ℚ) x = .ok n)
    (hy : l'.Supports (.number y)) (hm : sides (μ := ℚ) y = .ok m) {position i : Nat}
    (hle : position ≤ n) (hi : i < m) : (dieLaw faces (reached l position)).Supports
      (.number (.int (UInt32.ofNat (i + 1)).toInt32)) := by
  have hreached := reached_bounds hl position
  have hinv := isInvariant_indicator (ρ := ρ)
    (single (.number (.int (UInt32.ofNat (i + 1)).toInt32)))
  have hface : 0 < faceIntegral l'
      (indicator (single (.number (.int (UInt32.ofNat (i + 1)).toInt32)))) := by
    refine Law.integral_pos hl' (fun o p h => ?_) (fun o => ?_) hy ?_
    · exact congrArg (Law.integral · _) (dieOf_congr h)
    · exact Law.integral_nonneg (isNumeric_dieOf o).nonneg fun e _ => indicator_nonneg _ e.1
    · rw [dieOf_eq hm]
      exact (Law.supports_iff _ _).1 (Law.supports_uniform hi)
  rw [Law.supports_iff, integral_die hinv hl hfaces]
  exact add_pos_of_pos_of_nonneg
    (mul_pos (reached_pos_of_supports hl.nonneg hx hn hle) hface)
    (mul_nonneg (sub_nonneg.2 hreached.2) (indicator_nonneg _ _))

/-- The absence of a die has mass at every position beyond a number of dice with mass. -/
lemma supports_dieLaw_absent (hl : l.IsNormalized) (hl' : l'.Each fun _ p => 0 ≤ p)
    {faces : List (Law ρ ℚ)} (hfaces : weightedFaces limits l' = .ok faces) {x : Number ρ} {n : Nat}
    (hx : l.Supports (.number x)) (hn : count (μ := ℚ) x = .ok n) {position : Nat}
    (hlt : n < position) : (dieLaw faces (reached l position)).Supports .absent := by
  have hreached := reached_bounds hl position
  have hmissed := reached_lt_one_of_supports hl hx hn hlt
  have hface : 0 ≤ faceIntegral l' (indicator (single .absent)) :=
    Law.integral_nonneg hl' fun e _ =>
      Law.integral_nonneg (isNumeric_dieOf e.1).nonneg fun e _ => indicator_nonneg _ e.1
  rw [Law.supports_iff, integral_die (isInvariant_indicator _) hl hfaces,
    indicator_of_eq Std.ReflCmp.compare_self, mul_one]
  exact add_pos_of_nonneg_of_pos (mul_nonneg hreached.1 hface) (sub_pos.2 hmissed)

/-- The dice of a roll give mass to the faces that are shown, and those beyond them to absence. -/
theorem supports_laws (hl : l.IsNormalized) (hl' : l'.Each fun _ p => 0 ≤ p)
    {dice : List (Law ρ ℚ)} (h : laws limits l l' = .ok dice) {x y : Number ρ} {n m : Nat}
    (hx : l.Supports (.number x)) (hn : count (μ := ℚ) x = .ok n) (hy : l'.Supports (.number y))
    (hm : sides (μ := ℚ) y = .ok m) {shown : List UInt32} (hshown : IsRoll n m shown) :
    ∃ missing, List.Forall₂ Law.Supports dice
      (shown.map (fun face => .number (.int face.toInt32)) ++ List.replicate missing .absent) := by
  obtain ⟨-, -, faces, hfaces, rfl⟩ := of_laws_eq_ok h
  obtain ⟨hlength, hshown⟩ := hshown
  have hle : n ≤ greatestAt l := by
    obtain ⟨e, he, hcompare⟩ := hx.exists_entry
    have hcount := (greatestAt_spec l).2 e he
    rwa [isInvariant_countAt _ _ hcompare, countAt_eq hn] at hcount
  obtain ⟨missing, hmissing⟩ := Nat.exists_eq_add_of_le hle
  refine ⟨missing, ?_⟩
  rw [hmissing, List.range_add, List.map_append, List.map_map]
  refine List.rel_append ?_ ?_
  · rw [List.forall₂_map_left_iff, List.forall₂_map_right_iff, List.forall₂_iff_get]
    refine ⟨by rw [List.length_range, hlength], fun i hi hi' => ?_⟩
    obtain ⟨j, hj, hface⟩ := hshown _ (List.get_mem shown ⟨i, hi'⟩)
    rw [List.get_eq_getElem, List.getElem_range, hface]
    exact supports_dieLaw_face hl hl' hfaces hx hn hy hm (hi'.trans_eq hlength) hj
  · rw [List.forall₂_map_left_iff, List.forall₂_iff_get]
    refine ⟨by rw [List.length_range, List.length_replicate], fun i hi hi' => ?_⟩
    rw [List.get_eq_getElem, List.get_eq_getElem, List.getElem_range, List.getElem_replicate]
    exact supports_dieLaw_absent hl hl' hfaces hx hn (Nat.lt_succ_of_le (Nat.le_add_right n i))

end Dice

end DiceCalculus
