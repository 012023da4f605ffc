import DiceCalculus.Proofs.Agreement
import DiceCalculus.Proofs.Law.Integers

set_option autoImplicit false
set_option relaxedAutoImplicit false

/-!
# The laws of the dice of a roll

A roll with random operands has a law for each of its positions. This module says which: a die shows a
face if the position is reached and the die, with its random number of sides, shows that face; otherwise it
is absent. It also says what these laws are the laws of: they are those of the items of a sampled roll.

## Main definitions

* `Dice.IsDieAt` — the law of the die at a position, by its masses.
* `Outcome.shown` — the outcome of a die that shows a number or is absent.
* `Law.IsItemOf` — the law of the item at a position of a sampled list.

## Main results

* `rollAverage_getElem?` — every die of a roll is fair on its own.
* `Dice.isDieAt_dieLaw` — the masses of a computed die.
* `Meaning.mean_shown` — what is expected of the item at a position of a sampled roll.
* `die_laws_are_marginals` — the laws of a roll, and the chances of its sampled items.
-/

namespace DiceCalculus

variable {ρ : Type} [Scalar ρ] {limits : Limits ℚ}

open Outcome

/-! ## One die of a roll -/

/-- The average of a constant. -/
lemma rollAverage_const {count sides : Nat} (hsides : 0 < sides) (c : ℚ) :
    rollAverage count sides (fun _ => c) = c := by
  have hne : (sides : ℚ) ≠ 0 := Nat.cast_ne_zero.2 hsides.ne'
  unfold rollAverage
  rw [List.map_const', List.sum_replicate, length_faceLists, nsmul_eq_mul, Nat.cast_pow]
  exact mul_div_cancel_left₀ c (pow_ne_zero count hne)

/-- Every die of a roll is fair on its own, and there is none beyond the number of dice. -/
theorem rollAverage_getElem? {count sides : Nat} (hsides : 0 < sides) (i : Nat)
    (F : Option UInt32 → ℚ) : rollAverage count sides (fun faces => F faces[i]?) =
      if i < count then 1 / sides * ((List.range sides).map fun j => F (some (.ofNat (j + 1)))).sum
      else F none := by
  have hne : (sides : ℚ) ≠ 0 := Nat.cast_ne_zero.2 hsides.ne'
  induction count generalizing i with
  | zero => rw [rollAverage_zero, if_neg (Nat.not_lt_zero i), List.getElem?_nil]
  | succ count ih =>
    rw [rollAverage_succ]
    cases i with
    | zero =>
      simp only [List.getElem?_cons_zero, rollAverage_const hsides]
      rw [if_pos count.succ_pos]
    | succ i =>
      simp only [List.getElem?_cons_succ, ih]
      rw [List.map_const', List.sum_replicate, List.length_range, nsmul_eq_mul, one_div,
        inv_mul_cancel_left₀ hne]
      exact if_congr (Nat.succ_lt_succ_iff).symm rfl rfl

/-! ## The masses of a die -/

/-- An absent die shows no number. -/
lemma Outcome.indicator_number_absent (x : Number ρ) :
    indicator (single (.number x)) (single .absent) = 0 := indicator_of_ne (by nofun)

/-- A number is no absent die. -/
lemma Outcome.indicator_absent_number (x : Number ρ) :
    indicator (single .absent) (single (.number x)) = 0 := indicator_of_ne (by nofun)

/-- A law of numbers has no mass at an absent die. -/
lemma Law.IsNumeric.massOf_absent {l : Law ρ ℚ} (hl : l.IsNumeric) : l.massOf .absent = 0 := by
  show l.mass _ = _
  rw [mass_eq_integral, integral_congr (h := fun _ => 0) fun e he => ?_, integral_zero]
  obtain ⟨⟨x, hx⟩, -⟩ := hl e he
  rw [hx, indicator_absent_number]

/-- A fair die has the mass of each of its faces. -/
lemma Law.massAt_uniform {face sides : Nat} (hface : 1 ≤ face) (hlt : face < 2 ^ 31)
    (hsides : sides < 2 ^ 31) :
    (uniform sides : Law ρ ℚ).massAt face = if face ≤ sides then 1 / (sides : ℚ) else 0 := by
  have hindicator : ∀ i ∈ List.range sides,
      indicator (single (.number (.int (.ofNat face))) : Outcome ρ) (.face (.ofNat (i + 1))) =
        if i = face - 1 then 1 else 0 := fun i hi => by
    have hi := List.mem_range.1 hi
    refine if_congr ?_ rfl rfl
    rw [Outcome.face, compare_number_eq_iff, Dice.compare_face (by omega) hlt, compare_eq_iff_eq]
    omega
  show (uniform sides).mass _ = _
  rw [mass_eq_integral, integral_uniform (isInvariant_indicator _), List.map_congr_left hindicator]
  show 1 / (sides : ℚ) * ∑ i ∈ Finset.range sides, (if i = face - 1 then (1 : ℚ) else 0) = _
  rw [Finset.sum_ite_eq']
  by_cases hle : face ≤ sides
  · rw [if_pos hle, if_pos (Finset.mem_range.2 (by omega)), mul_one]
  · rw [if_neg hle, if_neg (Finset.mem_range.not.2 (by omega)), mul_zero]

namespace Dice

variable {l l' : Law ρ ℚ} {g : Outcome ρ → ℚ}

/-- The chance that the number of dice reaches a position. -/
lemma reached_eq_sum (hl : l.Each fun o _ => IsCount o) (position : Nat) :
    reached l position = ∑ n ∈ Finset.Ico position (2 ^ 31), l.massAt n := by
  unfold reached
  rw [integral_countAt_eq_sum hl fun n => if position ≤ n then 1 else 0]
  simp only [mul_ite, mul_one, mul_zero]
  rw [← Finset.sum_filter]
  refine Finset.sum_congr (Finset.ext fun n => ?_) fun _ _ => rfl
  rw [Finset.mem_filter, Finset.mem_range, Finset.mem_Ico, and_comm]

/-- The mass of a face of a die whose number of sides has a law. -/
lemma faceIntegral_face (hl' : l'.Each fun o _ => IsSides o) {face : Nat} (hface : 1 ≤ face)
    (hlt : face < 2 ^ 31) : faceIntegral l' (indicator (single (.number (.int (.ofNat face))))) =
      ∑ m ∈ Finset.Ico face (2 ^ 31), l'.massAt m / m := by
  have hdie : ∀ e ∈ l'.entries, (dieOf e.1).integral
      (indicator (single (.number (.int (.ofNat face))))) =
        if face ≤ sidesAt e.1 then 1 / (sidesAt e.1 : ℚ) else 0 := fun e he => by
    rw [(hl' e he).dieOf_eq_uniform, ← Law.mass_eq_integral]
    exact Law.massAt_uniform hface hlt (hl' e he).bounds.2
  unfold faceIntegral
  rw [Law.integral_congr (h := fun o => if face ≤ sidesAt o then 1 / (sidesAt o : ℚ) else 0) hdie,
    integral_sidesAt_eq_sum hl' fun m => if face ≤ m then 1 / (m : ℚ) else 0]
  simp only [mul_ite, mul_zero, mul_one_div]
  rw [← Finset.sum_filter]
  refine Finset.sum_congr (Finset.ext fun m => ?_) fun _ _ => rfl
  rw [Finset.mem_filter, Finset.mem_Ico, Finset.mem_Ico]
  omega

/-- The law of the die at a position, counted from one, of a roll whose numbers of dice and of sides
have laws. -/
structure IsDieAt (l l' : Law ρ ℚ) (position : Nat) (d : Law ρ ℚ) : Prop where
  /-- A face is shown if the position is reached and the die shows it. -/
  mass_face : ∀ face, 1 ≤ face → face < 2 ^ 31 → d.massAt face =
    (∑ n ∈ Finset.Ico position (2 ^ 31), l.massAt n) * ∑ m ∈ Finset.Ico face (2 ^ 31), l'.massAt m / m
  /-- The die is absent if the position is not reached. -/
  mass_absent : d.massOf .absent = 1 - ∑ n ∈ Finset.Ico position (2 ^ 31), l.massAt n
  /-- Its absence is an outcome only if it has a mass. -/
  absent_mem_iff : single .absent ∈ d.keys ↔ 1 - ∑ n ∈ Finset.Ico position (2 ^ 31), l.massAt n ≠ 0
  /-- All other outcomes are faces. -/
  eq_face : ∀ o ∈ d.keys, o ≠ single .absent →
    ∃ face, 1 ≤ face ∧ face < 2 ^ 31 ∧ o = single (.number (.int (.ofNat face)))

/-- The outcomes of the weighted faces of a die are faces. -/
lemma isOver_of_weightedFaces (hl' : l'.Each fun o _ => IsSides o) {faces : List (Law ρ ℚ)}
    (h : weightedFaces limits l' = .ok faces) {A : Atom ρ → Prop}
    (hA : ∀ face : Nat, 1 ≤ face → face < 2 ^ 31 → A (.number (.int (.ofNat face)))) :
    ∀ face ∈ faces, face.IsOver A := by
  rw [(of_weightedFaces h).2]
  refine List.forall_mem_map.2 fun e he => Law.isOver_empty.addScaled e.2 ?_
  rw [(hl' e he).dieOf_eq_uniform]
  have hsides := (hl' e he).bounds.2
  refine Law.isOver_ofEntries (List.forall_mem_map.2 fun i hi => ?_)
  have hi := List.mem_range.1 hi
  exact ⟨_, hA (i + 1) (by omega) (by omega), rfl⟩

/-- The law that is computed for a position is that of its die.

**Proof sketch.** An outcome of the law is a face, or absent if it may be that the die is not
rolled. The masses are integrals of indicators: over a die that is reached with some chance, the
integral is that over the faces by this chance, and the value for an absent die by the rest
(`integral_die`). Outcomes without mass are not listed. -/
theorem isDieAt_dieLaw (hl : l.IsNormalized) (hcount : l.Each fun o _ => IsCount o)
    (hsides : l'.Each fun o _ => IsSides o) {faces : List (Law ρ ℚ)}
    (hfaces : weightedFaces limits l' = .ok faces) (position : Nat) :
    IsDieAt l l' position (dieLaw faces (reached l position)) := by
  have hreached := reached_eq_sum hcount position
  have hover : (dieLaw faces (reached l position)).IsOver fun a =>
      (a = .absent ∧ 1 - reached l position ≠ 0) ∨
        ∃ face : Nat, 1 ≤ face ∧ face < 2 ^ 31 ∧ a = .number (.int (.ofNat face)) :=
    isOver_dieLaw (isOver_of_weightedFaces hsides hfaces fun face hface hlt =>
      .inr ⟨face, hface, hlt, rfl⟩) fun hmissed =>
        .inl ⟨rfl, ((Mass.isPositive_iff _).1 hmissed).ne'⟩
  have habsent : (dieLaw faces (reached l position)).massOf .absent = 1 - reached l position := by
    have hface : faceIntegral l' (indicator (single .absent)) = 0 := by
      refine (Law.integral_congr (h := fun _ => 0) fun e _ => ?_).trans (Law.integral_zero l')
      exact (Law.mass_eq_integral _ _).symm.trans (isNumeric_dieOf e.1).massOf_absent
    show (dieLaw faces _).mass _ = _
    rw [Law.mass_eq_integral, integral_die (isInvariant_indicator _) hl hfaces, hface, mul_zero, zero_add,
      indicator_of_eq Std.ReflCmp.compare_self, mul_one]
  refine ⟨fun face hface hlt => ?_, hreached ▸ habsent, ⟨fun hmem => ?_, fun hne => ?_⟩,
    fun o ho hne => ?_⟩
  · show (dieLaw faces _).mass _ = _
    rw [Law.mass_eq_integral, integral_die (isInvariant_indicator _) hl hfaces,
      faceIntegral_face hsides hface hlt, hreached, indicator_number_absent, mul_zero, add_zero]
  · obtain ⟨e, he, heq⟩ := List.mem_map.1 hmem
    obtain ⟨a, ⟨-, hne⟩ | ⟨face, -, -, rfl⟩, ho⟩ := hover e he
    · rwa [← hreached]
    · cases ho.symm.trans heq
  · rw [← hreached, ← habsent] at hne
    obtain ⟨e, he, heq⟩ := Law.exists_entry_of_mass_ne_zero hne
    obtain ⟨a, ⟨rfl, -⟩ | ⟨face, -, -, rfl⟩, ho⟩ := hover e he
    · exact List.mem_map.2 ⟨e, he, ho⟩
    · rw [ho] at heq
      cases heq
  · obtain ⟨e, he, rfl⟩ := List.mem_map.1 ho
    obtain ⟨a, ⟨rfl, -⟩ | ⟨face, hface, hlt, rfl⟩, ho⟩ := hover e he
    · exact absurd ho hne
    · exact ⟨face, hface, hlt, ho⟩

end Dice

/-! ## The items of a sampled roll -/

/-- The outcome of a die that shows a number or is absent. -/
def Outcome.shown (x? : Option (Number ρ)) : Outcome ρ := single (x?.elim .absent .number)

/-- A computation of a list always succeeds, and a law gives the chances of its item at a position,
counted from one: of being equal to a number, and of there being fewer items. -/
structure Law.IsItemOf (d : Law ρ ℚ) (act : Run ρ ℚ (List (Value ρ ℚ))) (s : Session ρ ℚ)
    (position : Nat) : Prop where
  /-- There is always a list. -/
  succeeds : act.Succeeds s
  /-- The mass of a number is the chance that the item equals it. -/
  mass_number : ∀ x : Number ρ, d.massOf (.number x) =
    act.chance s fun vs => vs[position - 1]?.any (·.isNumber x)
  /-- The mass of absence is the chance that the list ends before the position. -/
  mass_absent : d.massOf .absent = act.chance s fun vs => decide (vs.length < position)

namespace Meaning

variable {count sides : Meaning ρ ℚ} {s t : Session ρ ℚ} {l l' d : Law ρ ℚ} {g : Outcome ρ → ℚ}

/-- What is expected of the item at a position of a sampled roll mixes its faces and its absence.

**Proof sketch.** The faces are averaged over for every pair of operands (`mean_faces`). Of these the
one at the position is fair on its own, if the number of dice reaches it. -/
theorem mean_shown (hl : l.IsDrawnBy count.value s) (hl' : l'.IsDrawnBy sides.value s)
    (hrolls : s.limits.maxRolls = none) (ht : s.Charged t) (hcount : l.Each fun o _ => Dice.IsCount o)
    (hsides : l'.Each fun o _ => Dice.IsSides o) (hg : IsInvariant g) (i : Nat) :
    (faces count sides).mean t (fun xs => g (shown xs[i]?)) =
      Dice.reached l (i + 1) * Dice.faceIntegral l' g
        + (1 - Dice.reached l (i + 1)) * g (single .absent) := by
  have hroll : ∀ e ∈ l.entries, ∀ e' ∈ l'.entries,
      Dice.average (fun xs => g (shown xs[i]?)) (e.1 ++ e'.1) =
        if i + 1 ≤ Dice.countAt e.1 then (Dice.dieOf e'.1).integral g else g (single .absent) := by
    intro e he e' he'
    obtain ⟨x, n, hx, hn⟩ := hcount e he
    obtain ⟨y, m, hy, hm⟩ := hsides e' he'
    rw [hx, hy, Dice.average_eq _ hn hm, Dice.countAt_eq hn, Dice.dieOf_eq hm, Law.integral_uniform hg]
    simp only [List.getElem?_map]
    exact rollAverage_getElem? (Dice.sides_bounds hm).1 i fun face? =>
      g (shown (face?.map fun face => .int face.toInt32))
  rw [mean_faces hl hl' hrolls ht hcount hsides]
  calc l.integral (fun o => l'.integral fun o' =>
        Dice.average (fun xs => g (shown xs[i]?)) (o ++ o'))
    _ = l.integral fun o => g (single .absent) + (if i + 1 ≤ Dice.countAt o then 1 else 0) *
          (Dice.faceIntegral l' g - g (single .absent)) := by
        refine Law.integral_congr fun e he => ?_
        rw [Law.integral_congr (h := fun o' => if i + 1 ≤ Dice.countAt e.1 then
          (Dice.dieOf o').integral g else g (single .absent)) (hroll e he)]
        split
        · rw [one_mul, add_sub_cancel]
          rfl
        · rw [zero_mul, add_zero, hl'.normalized.integral_const]
    _ = _ := by
        rw [Law.integral_add, hl.normalized.integral_const, Law.integral_mul_const]
        unfold Dice.reached
        ring

/-- The law of a die is that of the item of a sampled roll at its position.

**Proof sketch.** Both sides are means of indicators. The mean of what a roll shows at a position is
the integral over the law of the die there (`mean_shown`), where a position behind the last face
shows an absent die. -/
lemma isItemOf_dieLaw (hl : l.IsDrawnBy count.value s) (hl' : l'.IsDrawnBy sides.value s)
    (hrolls : s.limits.maxRolls = none) (hcount : l.Each fun o _ => Dice.IsCount o)
    (hsides : l'.Each fun o _ => Dice.IsSides o) {faces : List (Law ρ ℚ)} {limits : Limits ℚ}
    (hfaces : Dice.weightedFaces limits l' = .ok faces) (i : Nat) :
    (Dice.dieLaw faces (Dice.reached l (i + 1))).IsItemOf (dice count sides).items s (i + 1) := by
  have hmean (a : Atom ρ) : (Dice.dieLaw faces (Dice.reached l (i + 1))).massOf a =
      (Meaning.faces count sides).mean s fun xs => indicator (single a) (shown xs[i]?) := by
    have hinv := isInvariant_indicator (single a)
    show (Dice.dieLaw faces _).mass _ = _
    rw [mean_shown hl hl' hrolls s.charged_self hcount hsides hinv, Law.mass_eq_integral,
      Dice.integral_die hinv hl.normalized hfaces]
  have hitems (p : List (Value ρ ℚ) → Bool) : (dice count sides).items.chance s p =
      (Meaning.faces count sides).mean s fun xs => if p (xs.map .number) then 1 else 0 :=
    (Run.chance_eq_mean _ s p).trans (Run.mean_map _ _)
  refine ⟨Run.succeeds_map.2 ((succeeds_faces hl hl' hrolls s.charged_self).2 ⟨hcount, hsides⟩),
    fun x => ?_, ?_⟩
  · rw [hmean, hitems]
    refine congrArg ((Meaning.faces count sides).mean s) (funext fun xs => ?_)
    rw [Nat.add_sub_cancel, List.getElem?_map]
    cases xs[i]? with
    | none => exact indicator_number_absent x
    | some y =>
      refine if_congr ?_ rfl rfl
      show compare (single (.number y)) (single (.number x)) = .eq ↔ (compare y x == .eq) = true
      rw [compare_number_eq_iff, beq_iff_eq]
  · rw [hmean, hitems]
    refine congrArg ((Meaning.faces count sides).mean s) (funext fun xs => ?_)
    rw [List.length_map]
    by_cases hi : i < xs.length
    · rw [List.getElem?_eq_getElem hi, if_neg (by simpa [Nat.lt_succ_iff] using hi)]
      exact indicator_absent_number _
    · rw [List.getElem?_eq_none (not_lt.1 hi), if_pos (by simpa [Nat.lt_succ_iff] using hi)]
      exact indicator_of_eq Std.ReflCmp.compare_self

end Meaning

/-- The laws of the dice of a roll are marginals of its samples. Without a limit of outcomes, a roll
whose operands have laws of numbers of dice and of sides, with mass one, has a law for each position up
to the greatest number of dice. Its masses are the chances that the position is reached and the die
shows a face, and that it is not reached. If the samples of the operands have their laws, one after the
other, and no limit of dice gets in the way, these are the chances of the item at the position of the
sampled roll.

**Proof sketch.** Integrals over the law of a die are known (`Dice.integral_die`). The masses are read off
them, and the mean of a function of a sampled item is the same integral (`Meaning.mean_shown`). -/
theorem die_laws_are_marginals {count sides : Meaning ρ ℚ} {l l' : Law ρ ℚ} {s t u : Session ρ ℚ}
    (hcount : count.law.exec s = .done (.ok l, t)) (hsides : sides.law.exec t = .done (.ok l', u))
    (hlimits : u.limits.maxOutcomes = none) (hl : l.IsNormalized)
    (hcounts : l.Each fun o _ => Dice.IsCount o) (hfaces : l'.Each fun o _ => Dice.IsSides o) :
    ∃ dice, (Meaning.dice count sides).laws.exec s = .done (.ok dice, u) ∧
      (∃ e ∈ l.entries, Dice.countAt e.1 = dice.length) ∧
      (∀ e ∈ l.entries, Dice.countAt e.1 ≤ dice.length) ∧
      ∀ i, (hi : i < dice.length) → Dice.IsDieAt l l' (i + 1) dice[i] ∧
        ∀ v : Session ρ ℚ, v.limits.maxRolls = none → l.IsDrawnBy count.value v →
          l'.IsDrawnBy sides.value v →
            dice[i].IsItemOf (Meaning.dice count sides).items v (i + 1) := by
  obtain ⟨dice, hdice⟩ := (Dice.laws_isOk_iff hlimits).2 ⟨hcounts, hfaces⟩
  obtain ⟨-, -, faces, hweighted, hmap⟩ := Dice.of_laws_eq_ok hdice
  have hlength : dice.length = Dice.greatestAt l := by rw [hmap, List.length_map, List.length_range]
  obtain ⟨hattained, hle⟩ := Dice.greatestAt_spec l
  refine ⟨dice, ?_, ?_, fun e he => hlength ▸ hle e he, fun i hi => ?_⟩
  · calc (Meaning.dice count sides).laws.exec s
      _ = (Run.ofExcept (Dice.laws u.limits l l')).exec u :=
          (Run.exec_bind_done hcount).trans (Run.exec_bind_done hsides)
      _ = .done (.ok dice, u) := by
          rw [hdice, Run.exec_ofExcept]
          rfl
  · rw [hlength]
    rcases hattained with hzero | hattained
    · obtain ⟨e, he⟩ := hl.exists_entry
      exact ⟨e, he, Nat.le_antisymm (hle e he) (hzero ▸ Nat.zero_le _)⟩
    · exact hattained
  · have hdie : dice[i] = Dice.dieLaw faces (Dice.reached l (i + 1)) := by
      simp only [hmap, List.getElem_map, List.getElem_range]
    rw [hdie]
    exact ⟨Dice.isDieAt_dieLaw hl hcounts hfaces hweighted (i + 1), fun v hrolls hdrawn hdrawn' =>
      Meaning.isItemOf_dieLaw hdrawn hdrawn' hrolls hcounts hfaces hweighted i⟩

/-- The second of as many coins as a coin shows is absent with chance one half. -/
theorem die_laws_are_marginals_of_coins :
    let s : Session (WithBot ℚ) ℚ := .start ⟨none, none, none, 0⟩
    let coin : Meaning (WithBot ℚ) ℚ := .dice (.literal (.int 1)) (.literal (.int 2))
    let coins : Meaning (WithBot ℚ) ℚ := .dice coin (.literal (.int 2))
    ∃ dice, coins.laws.exec s = .done (.ok dice, s) ∧ ∃ h : 1 < dice.length,
      dice[1].IsItemOf coins.items s 2 ∧ dice[1].massOf .absent = 1 / 2 := by
  intro s coin coins
  have hs := s.charged_self
  have hcoin : coin.Agrees s := Meaning.agrees_dice rfl (Scalar.isCongruent_exact .add) rfl
    (Meaning.agrees_literal s _) (Meaning.agrees_literal s _)
  have htwo : (Meaning.literal (.int 2)).Agrees s := Meaning.agrees_literal s _
  obtain ⟨l, hl, hexec⟩ := (Run.Agrees.with_exec hcoin).exists_result hs
    (Run.succeeds_iff_expect.2 (by decide +kernel))
  obtain ⟨l', hl', hexec'⟩ := (Run.Agrees.with_exec htwo).exists_result hs
    (Run.succeeds_iff_expect.2 (by decide +kernel))
  have hsucceeds : (Meaning.faces coin (.literal (.int 2))).Succeeds s :=
    Run.succeeds_iff_expect.2 (by decide +kernel)
  obtain ⟨hcounts, hsides⟩ := (Meaning.succeeds_faces hl hl' rfl hs).1 hsucceeds
  obtain ⟨dice, hdice, -, -, hall⟩ := die_laws_are_marginals (hexec s hs) (hexec' s hs) rfl
    hl.normalized hcounts hsides
  have hlength : (match coins.laws.exec s with
      | .done (.ok dice, _) => dice.length
      | _ => 0) = 2 := by decide +kernel
  rw [hdice] at hlength
  have hone : 1 < dice.length := (show dice.length = 2 from hlength) ▸ one_lt_two
  have hitem := (hall 1 hone).2 s rfl hl hl'
  refine ⟨dice, hdice, hone, hitem, ?_⟩
  rw [hitem.mass_absent]
  decide +kernel

end DiceCalculus
