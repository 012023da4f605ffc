import DiceCalculus.Proofs.Law.Normalized
import DiceCalculus.Proofs.Sampler.Chance

set_option autoImplicit false
set_option relaxedAutoImplicit false

/-!
# Integrals of operators and sums of dice

The law of an operator integrates over its operands one after the other, and the law of a sum of
dice averages over the faces of the roll. So an integral over these laws is what is expected of a
sample that draws the operands, or the faces, one after the other.

## Main definitions

* `Law.IsNumeric` — a law of numbers, each with a mass above zero.
* `Operator.onOutcomes` — the value of an operator at two outcomes.
* `Dice.addFaces` — an outcome with the faces of a roll added to it.
* `Dice.average` — the average over the roll that an outcome stands for.

## Main results

* `Law.integral_operate` — operators.
* `Dice.integral_sumLaw` — the sum of a number of dice.
* `Dice.integral_law` — the sum of a roll whose operands have laws.
* `Law.operate_isOk_iff`, `Dice.law_isOk_iff` — when there is a law.
-/

namespace DiceCalculus

variable {ρ : Type} [Scalar ρ] {limits : Limits ℚ}

open Outcome

/-! ## Laws of numbers -/

namespace Law

/-- A law of numbers, each with a mass above zero. -/
def IsNumeric (l : Law ρ ℚ) : Prop := l.Each fun o p => (∃ x, o = single (.number x)) ∧ 0 < p

variable {l l' d : Law ρ ℚ}

/-- Masses of numbers above zero stay so when they are added at one number. -/
lemma isKeyPredicate_numeric :
    Table.IsKeyPredicate fun (o : Outcome ρ) (p : ℚ) =>
      (∃ x, o = single (.number x)) ∧ 0 < p := by
  rintro o o' p h ⟨⟨x, rfl⟩, hp⟩
  obtain ⟨y, rfl, _⟩ := exists_of_compare_number_eq h
  exact ⟨⟨y, rfl⟩, hp⟩

omit [Scalar ρ] in
/-- Masses of numbers above zero add up to one above zero. -/
lemma numeric_add (o : Outcome ρ) (p q : ℚ) (hp : (∃ x, o = single (.number x)) ∧ 0 < p)
    (hq : (∃ x, o = single (.number x)) ∧ 0 < q) : (∃ x, o = single (.number x)) ∧ 0 < p + q :=
  ⟨hp.1, add_pos hp.2 hq.2⟩

/-- The masses of a law of numbers are above zero. -/
lemma IsNumeric.pos (hl : l.IsNumeric) : l.Each fun _ p => 0 < p := fun e he => (hl e he).2

/-- The masses of a law of numbers are not negative. -/
lemma IsNumeric.nonneg (hl : l.IsNumeric) : l.Each fun _ p => 0 ≤ p := fun e he => (hl e he).2.le

/-- A constant number has a law of numbers. -/
lemma isNumeric_certain (x : Number ρ) : (certain (.number x) : Law ρ ℚ).IsNumeric := by
  unfold IsNumeric Each
  rw [entries_certain]
  exact List.forall_mem_singleton.2 ⟨⟨x, rfl⟩, zero_lt_one⟩

/-- A fair die has a law of numbers. -/
lemma isNumeric_uniform {sides : Nat} : (uniform sides : Law ρ ℚ).IsNumeric := by
  refine each_ofEntries isKeyPredicate_numeric numeric_add fun e he => ?_
  obtain ⟨i, hi, rfl⟩ := List.mem_map.1 he
  have hpos : 0 < sides := by
    have := List.mem_range.1 hi
    omega
  refine ⟨⟨_, rfl⟩, ?_⟩
  show (0 : ℚ) < 1 / sides
  positivity

/-- A weighted law of numbers added to another is a law of numbers. -/
lemma IsNumeric.addScaled {target : Law ρ ℚ} (htarget : target.IsNumeric) {weight : ℚ}
    (hweight : 0 < weight) (hl : l.IsNumeric) : (target.addScaled weight l).IsNumeric :=
  each_addScaled isKeyPredicate_numeric numeric_add htarget fun e he =>
    ⟨(hl e he).1, mul_pos (hl e he).2 hweight⟩

/-- The law without outcomes. -/
lemma isNumeric_empty : IsNumeric (Table.empty : Law ρ ℚ) :=
  fun _ he => absurd he List.not_mem_nil

/-- A law with total one has an entry. -/
lemma IsNormalized.exists_entry (hl : l.IsNormalized) : ∃ e, e ∈ l.entries := by
  refine List.exists_mem_of_ne_nil _ fun hnil => ?_
  have htotal := hl.total
  unfold integral at htotal
  rw [hnil] at htotal
  exact zero_ne_one htotal

/-- Properties of the outcomes of two laws hold of all pairs exactly if each holds of its law. -/
lemma each_and_iff (hl : l.IsNormalized) (hl' : l'.IsNormalized) {P Q : Outcome ρ → Prop} :
    (l.Each fun o _ => l'.Each fun o' _ => P o ∧ Q o') ↔
      (l.Each fun o _ => P o) ∧ l'.Each fun o _ => Q o := by
  constructor
  · intro h
    obtain ⟨e, he⟩ := hl.exists_entry
    obtain ⟨e', he'⟩ := hl'.exists_entry
    exact ⟨fun e he => (h e he e' he').1, fun e' he' => (h e he e' he').2⟩
  · exact fun ⟨h, h'⟩ e he e' he' => ⟨h e he, h' e' he'⟩

/-- A function that is not negative has integral zero exactly if it is zero at every outcome, if all
masses are above zero. -/
lemma integral_eq_zero_iff {g : Outcome ρ → ℚ} (hl : l.Each fun _ p => 0 < p)
    (hg : ∀ e ∈ l.entries, 0 ≤ g e.1) : l.integral g = 0 ↔ ∀ e ∈ l.entries, g e.1 = 0 := by
  have hmap : ∀ x ∈ l.entries.map fun e => e.2 * g e.1, 0 ≤ x :=
    List.forall_mem_map.2 fun e he => mul_nonneg (hl e he).le (hg e he)
  constructor
  · intro hzero e he
    have h := List.all_zero_of_le_zero_le_of_sum_eq_zero hmap hzero (List.mem_map_of_mem he)
    exact (mul_eq_zero.1 h).resolve_left (hl e he).ne'
  · intro hzero
    refine List.sum_eq_zero (List.forall_mem_map.2 fun e he => ?_)
    rw [hzero e he, mul_zero]

/-- The outcomes of a joint law are, up to the form of numbers, the pairs of outcomes of the two. -/
lemma each_product_iff {P : Outcome ρ → Prop} (hP : IsInvariant P)
    (hl : l.Each fun _ p => 0 < p) (hl' : l'.Each fun _ p => 0 < p) :
    ((l.product l').Each fun o _ => P o) ↔ l.Each fun o _ => l'.Each fun o' _ => P (o ++ o') := by
  constructor
  · intro h
    -- the pairs without the property have no mass in the joint law, hence none at all
    obtain ⟨miss, hinv, hnonneg, hmiss⟩ := exists_miss hP
    have hzero : (l.product l').integral miss = 0 :=
      List.sum_eq_zero (List.forall_mem_map.2 fun e he => by rw [(hmiss e.1).2 (h e he), mul_zero])
    have hinner : ∀ e ∈ l.entries, 0 ≤ l'.integral fun o' => miss (e.1 ++ o') := fun e _ =>
      integral_nonneg (fun e' he' => (hl' e' he').le) fun e' _ => hnonneg (e.1 ++ e'.1)
    rw [integral_product hinv,
      integral_eq_zero_iff (g := fun o => l'.integral fun o' => miss (o ++ o')) hl hinner] at hzero
    intro e he e' he'
    have hpair := (integral_eq_zero_iff (g := fun o' => miss (e.1 ++ o')) hl'
      fun e' _ => hnonneg (e.1 ++ e'.1)).1 (hzero e he)
    exact (hmiss (e.1 ++ e'.1)).1 (hpair e' he')
  · intro h
    exact each_product (fun o o' _ hoo => (hP o o' hoo).mp) (fun _ _ _ hp _ => hp)
      fun e he e' he' => h e he e' he'

end Law

/-! ## Operators -/

namespace Operator

/-- The value of an operator at two outcomes. -/
def onOutcomes (op : Operator) (o o' : Outcome ρ) : Outcome ρ :=
  single (Law.valueAt (ε := Fault ρ ℚ) op.combine (o ++ o'))

/-- The value of an operator at two numbers. -/
lemma onOutcomes_number {op : Operator} {x y z : Number ρ} (h : op.value? x y = some z) :
    op.onOutcomes (single (.number x)) (single (.number y)) = single (.number z) :=
  congrArg single (Law.valueAt_eq (combine_eq_ok_iff.2 ⟨x, y, z, rfl, h, rfl⟩))

/-- An invariant function of the value of an operator is one of the first operand. -/
lemma isInvariant_onOutcomes_left {α : Type} {op : Operator} (hop : op.IsCongruent ρ)
    {g : Outcome ρ → α} (hg : IsInvariant g) (o' : Outcome ρ) :
    IsInvariant fun o => g (op.onOutcomes o o') :=
  (hg.comp_isCongruent (isCongruent_combine hop)).append_left o'

/-- An invariant function of the value of an operator is one of the second operand. -/
lemma isInvariant_onOutcomes_right {α : Type} {op : Operator} (hop : op.IsCongruent ρ)
    {g : Outcome ρ → α} (hg : IsInvariant g) (o : Outcome ρ) :
    IsInvariant fun o' => g (op.onOutcomes o o') :=
  (hg.comp_isCongruent (isCongruent_combine hop)).append_right o

end Operator

namespace Law

variable {l l' d : Law ρ ℚ} {g : Outcome ρ → ℚ} {op : Operator}

/-- The law of an operator is that of its values. -/
lemma eq_image_of_operate (h : operate limits op l l' = .ok d) :
    d = (l.product l').image (valueAt (ε := Fault ρ ℚ) op.combine) := by
  obtain ⟨joint, hjoint, h⟩ := Except.bind_eq_ok_iff.1 h
  obtain rfl := Limits.eq_product_of_ok hjoint
  exact (fold_eq_ok_iff.1 h).2

/-- The integral over the law of an operator integrates over its operands. -/
theorem integral_operate (hop : op.IsCongruent ρ) (hg : IsInvariant g)
    (h : operate limits op l l' = .ok d) :
    d.integral g = l.integral fun o => l'.integral fun o' => g (op.onOutcomes o o') := by
  rw [eq_image_of_operate h, integral_image hg,
    integral_product (hg.comp_isCongruent (isCongruent_combine hop))]
  rfl

/-- Where an operator has a value does not depend on how numbers are written. -/
lemma isInvariant_combine_isOk (hop : op.IsCongruent ρ) :
    IsInvariant fun o : Outcome ρ => ∃ a, op.combine (μ := ℚ) o.atoms = .ok a := by
  have himp {o p : Outcome ρ} (h : compare o p = .eq)
      (ho : ∃ a, op.combine (μ := ℚ) o.atoms = .ok a) :
      ∃ a, op.combine (μ := ℚ) p.atoms = .ok a := by
    obtain ⟨a, ha⟩ := ho
    obtain ⟨b, hb, _⟩ := exists_combine_of_compare_eq hop h ha
    exact ⟨b, hb⟩
  exact fun o p h => propext ⟨himp h, himp (Std.OrientedCmp.eq_symm h)⟩

/-- An operator between two laws that has a law has a value at all pairs of their outcomes. -/
lemma each_of_operate (hop : op.IsCongruent ρ) (hl : l.IsNumeric) (hl' : l'.IsNumeric)
    (h : operate limits op l l' = .ok d) :
    l.Each fun o _ => l'.Each fun o' _ => ∃ a, op.combine (μ := ℚ) (o ++ o').atoms = .ok a := by
  obtain ⟨joint, hjoint, h⟩ := Except.bind_eq_ok_iff.1 h
  obtain rfl := Limits.eq_product_of_ok hjoint
  exact (each_product_iff (isInvariant_combine_isOk hop) hl.pos hl'.pos).1 (fold_eq_ok_iff.1 h).1

/-- Without a limit of outcomes, an operator between laws of numbers has a law exactly if it has a
value at all pairs of them. -/
theorem operate_isOk_iff (hlimits : limits.maxOutcomes = none) (hop : op.IsCongruent ρ)
    (hl : l.IsNumeric) (hl' : l'.IsNumeric) : (∃ d, operate limits op l l' = .ok d) ↔
      l.Each fun o _ => l'.Each fun o' _ => ∃ a, op.combine (μ := ℚ) (o ++ o').atoms = .ok a := by
  refine ⟨fun ⟨d, hd⟩ => each_of_operate hop hl hl' hd, fun h => ?_⟩
  rw [← each_product_iff (isInvariant_combine_isOk hop) hl.pos hl'.pos] at h
  unfold operate
  rw [Limits.product_eq_ok hlimits]
  exact ⟨_, fold_eq_ok_iff.2 ⟨h, rfl⟩⟩

/-- The law of an operator is a law of numbers. -/
lemma isNumeric_of_operate (hl : l.IsNumeric) (hl' : l'.IsNumeric)
    (h : operate limits op l l' = .ok d) : d.IsNumeric := by
  obtain ⟨joint, hjoint, h⟩ := Except.bind_eq_ok_iff.1 h
  obtain rfl := Limits.eq_product_of_ok hjoint
  obtain ⟨hvalues, rfl⟩ := fold_eq_ok_iff.1 h
  have hpos : (l.product l').Each fun _ p => 0 < p :=
    each_product (fun _ _ _ _ hp => hp) (fun _ _ _ => add_pos) fun e he e' he' =>
      mul_pos (hl e he).2 (hl' e' he').2
  refine each_image isKeyPredicate_numeric numeric_add fun e he => ⟨?_, hpos e he⟩
  obtain ⟨a, ha⟩ := hvalues e he
  obtain ⟨_, _, z, _, _, rfl⟩ := combine_eq_ok_iff.1 ha
  exact ⟨z, congrArg single (valueAt_eq ha)⟩

end Law

/-! ## Sums of dice -/

namespace Dice

variable {l l' d sum : Law ρ ℚ} {g : Outcome ρ → ℚ} {count sides : Nat}

/-- An outcome with the faces of a roll added to it one after the other. -/
def addFaces (o : Outcome ρ) (faces : List UInt32) : Outcome ρ :=
  faces.foldl (fun o face => Operator.onOutcomes .add o (.face face)) o

/-- A number with the faces of a roll added to it is their sum. -/
lemma addFaces_number (x : Number ρ) (faces : List UInt32) :
    addFaces (single (.number x)) faces =
      single (.number ((faces.map fun face => .int face.toInt32).foldl (· + ·) x)) := by
  induction faces generalizing x with
  | nil => rfl
  | cons face faces ih => exact ih (x + .int face.toInt32)

/-- Faces added to equal outcomes give equal outcomes. -/
lemma compare_addFaces (hadd : Operator.IsCongruent ρ .add) {o p : Outcome ρ}
    (h : compare o p = .eq) (faces : List UInt32) :
    compare (addFaces o faces) (addFaces p faces) = .eq := by
  induction faces generalizing o p with
  | nil => exact h
  | cons face faces ih =>
    refine ih ((compare_single_eq_iff _ _).2 ?_)
    exact isCongruent_combine hadd _ _ (compare_append_eq h Std.ReflCmp.compare_self)

/-- The average over the faces that are added to an outcome does not depend on how its numbers are
written. -/
lemma isInvariant_rollAverage (hadd : Operator.IsCongruent ρ .add) (hg : IsInvariant g)
    (count sides : Nat) :
    IsInvariant fun o => rollAverage count sides fun faces => g (addFaces o faces) :=
  fun _ _ h => congrArg (rollAverage count sides) (funext fun faces =>
    hg _ _ (compare_addFaces hadd h faces))

/-- The integral over a law with dice added to it averages over their faces. -/
lemma integral_addDice (hadd : Operator.IsCongruent ρ .add) (hg : IsInvariant g)
    (h : addDice limits (.uniform sides) count sum = .ok d) : d.integral g =
      sum.integral fun o => rollAverage count sides fun faces => g (addFaces o faces) := by
  induction count generalizing sum with
  | zero =>
    obtain rfl := Except.ok.inj h
    simp only [rollAverage_zero]
    rfl
  | succ count ih =>
    obtain ⟨next, hnext, h⟩ := Except.bind_eq_ok_iff.1 h
    have hinner := isInvariant_rollAverage hadd hg count sides
    rw [ih h, Law.integral_operate hadd hinner hnext]
    refine Law.integral_congr fun e _ => ?_
    show (Law.uniform sides).integral (fun o' => rollAverage count sides fun faces =>
      g (addFaces (Operator.onOutcomes .add e.1 o') faces)) = _
    rw [Law.integral_uniform (Operator.isInvariant_onOutcomes_right hadd hinner e.1),
      rollAverage_succ]
    rfl

/-- The integral over the sum of dice averages over their faces. -/
theorem integral_sumLaw (hadd : Operator.IsCongruent ρ .add) (hg : IsInvariant g)
    (h : sumLaw limits count sides = .ok d) : d.integral g =
      rollAverage count sides fun faces => g (addFaces (single (.number .zero)) faces) := by
  obtain ⟨die, hdie, h⟩ := Except.bind_eq_ok_iff.1 h
  obtain rfl := Limits.eq_uniform_of_ok hdie
  rw [integral_addDice hadd hg h, Law.integral_certain]

/-- Dice added to a law of numbers have a law of numbers. -/
lemma isNumeric_of_addDice {die : Law ρ ℚ} (hdie : die.IsNumeric) (hsum : sum.IsNumeric)
    (h : addDice limits die count sum = .ok d) : d.IsNumeric := by
  induction count generalizing sum with
  | zero => exact Except.ok.inj h ▸ hsum
  | succ count ih =>
    obtain ⟨next, hnext, h⟩ := Except.bind_eq_ok_iff.1 h
    exact ih (Law.isNumeric_of_operate hsum hdie hnext) h

/-- The sum of dice has a law of numbers. -/
lemma isNumeric_of_sumLaw (h : sumLaw limits count sides = .ok d) : d.IsNumeric := by
  obtain ⟨die, hdie, h⟩ := Except.bind_eq_ok_iff.1 h
  obtain rfl := Limits.eq_uniform_of_ok hdie
  exact isNumeric_of_addDice Law.isNumeric_uniform (Law.isNumeric_certain _) h

/-- Without a limit of outcomes, dice can be added to a law of numbers. -/
lemma exists_addDice (hlimits : limits.maxOutcomes = none) (hadd : Operator.IsCongruent ρ .add)
    {die : Law ρ ℚ} (hdie : die.IsNumeric) (hsum : sum.IsNumeric) :
    ∃ d, addDice limits die count sum = .ok d := by
  induction count generalizing sum with
  | zero => exact ⟨sum, rfl⟩
  | succ count ih =>
    obtain ⟨next, hnext⟩ := (Law.operate_isOk_iff hlimits hadd hsum hdie).2 fun e he e' he' => by
      obtain ⟨⟨x, hx⟩, _⟩ := hsum e he
      obtain ⟨⟨y, hy⟩, _⟩ := hdie e' he'
      rw [hx, hy]
      exact ⟨_, rfl⟩
    obtain ⟨d, hd⟩ := ih (Law.isNumeric_of_operate hsum hdie hnext)
    exact ⟨d, Except.bind_eq_ok_iff.2 ⟨next, hnext, hd⟩⟩

/-- Without a limit of outcomes, every number of dice has a sum. -/
lemma exists_sumLaw (hlimits : limits.maxOutcomes = none) (hadd : Operator.IsCongruent ρ .add)
    (count sides : Nat) : ∃ d : Law ρ ℚ, sumLaw limits count sides = .ok d := by
  obtain ⟨d, hd⟩ : ∃ d : Law ρ ℚ,
      addDice limits (.uniform sides) count (.certain (.number .zero)) = .ok d :=
    exists_addDice hlimits hadd Law.isNumeric_uniform (Law.isNumeric_certain .zero)
  exact ⟨d, Except.bind_eq_ok_iff.2 ⟨_, Limits.uniform_eq_ok hlimits sides, hd⟩⟩

/-! ## Rolls with random operands -/

/-- An outcome is a number of dice. -/
def IsCount (o : Outcome ρ) : Prop := ∃ x n, o = single (.number x) ∧ Dice.count (μ := ℚ) x = .ok n

/-- An outcome is a number of sides. -/
def IsSides (o : Outcome ρ) : Prop := ∃ x m, o = single (.number x) ∧ Dice.sides (μ := ℚ) x = .ok m

/-- The average of a function of the faces over the roll that a joint outcome stands for. -/
def average (F : List (Number ρ) → ℚ) (o : Outcome ρ) : ℚ :=
  match operands (μ := ℚ) o.atoms with
  | .ok (n, m) => rollAverage n m fun faces => F (faces.map fun face => .int face.toInt32)
  | .error _ => 0

/-- The average over a roll with known operands. -/
lemma average_eq (F : List (Number ρ) → ℚ) {x y : Number ρ} {n m : Nat}
    (hn : Dice.count (μ := ℚ) x = .ok n) (hm : Dice.sides (μ := ℚ) y = .ok m) :
    average F (single (.number x) ++ single (.number y)) =
      rollAverage n m fun faces => F (faces.map fun face => .int face.toInt32) := by
  unfold average
  rw [show operands (μ := ℚ) (single (.number x) ++ single (.number y) : Outcome ρ).atoms
    = .ok (n, m) from operands_eq_ok_iff.2 ⟨x, y, rfl, hn, hm⟩]

/-- The average over a roll does not depend on how its operands are written. -/
lemma isInvariant_average (F : List (Number ρ) → ℚ) : IsInvariant (average F) := by
  intro o p h
  unfold average
  cases ho : operands (μ := ℚ) o.atoms with
  | ok nm => rw [(operands_congr h).1 ho]
  | error e =>
    cases hp : operands (μ := ℚ) p.atoms with
    | ok nm =>
      rw [(operands_congr h).2 hp] at ho
      cases ho
    | error e' => rfl

/-- The integral over the law of a roll integrates over its operands, and averages over the sum of
the faces of the roll that they stand for. -/
theorem integral_law (hadd : Operator.IsCongruent ρ .add) (hg : IsInvariant g)
    (h : law limits l l' = .ok d) :
    d.integral g = l.integral fun o => l'.integral fun o' =>
      average (fun faces => g (single (.number (faces.foldl (· + ·) .zero)))) (o ++ o') := by
  have hmix := mixSums_of_law h
  rw [integral_mixSums hg hmix, Law.integral_empty, zero_add,
    ← Law.integral_product (isInvariant_average _)]
  refine congrArg List.sum (List.map_congr_left fun e he => congrArg (e.2 * ·) ?_)
  obtain ⟨n, m, hop, hsum⟩ := of_mixSums hmix e he
  unfold average
  rw [hop, integral_sumLaw hadd hg hsum]
  simp only [addFaces_number]

/-- The law of a roll is a law of numbers. -/
lemma isNumeric_of_law (hl : l.IsNumeric) (hl' : l'.IsNumeric) (h : law limits l l' = .ok d) :
    d.IsNumeric := by
  have hmix {es : List (Outcome ρ × ℚ)} (hes : ∀ e ∈ es, 0 < e.2) {mixture : Law ρ ℚ}
      (hmixture : mixture.IsNumeric) (h : mixSums limits es mixture = .ok d) : d.IsNumeric := by
    induction es generalizing mixture with
    | nil => exact Except.ok.inj h ▸ hmixture
    | cons e es ih =>
      rw [List.forall_mem_cons] at hes
      obtain ⟨⟨n, m⟩, _, h⟩ := Except.bind_eq_ok_iff.1 h
      obtain ⟨part, hpart, h⟩ := Except.bind_eq_ok_iff.1 h
      exact ih hes.2 (hmixture.addScaled hes.1 (isNumeric_of_sumLaw hpart)) h
  have hpos : (l.product l').Each fun _ p => 0 < p :=
    Law.each_product (fun _ _ _ _ hp => hp) (fun _ _ _ => add_pos) fun e he e' he' =>
      mul_pos (hl e he).2 (hl' e' he').2
  exact hmix hpos Law.isNumeric_empty (mixSums_of_law h)

/-- Without a limit of outcomes, a mixture over operands that stand for rolls has a result. -/
lemma exists_mixSums (hlimits : limits.maxOutcomes = none) (hadd : Operator.IsCongruent ρ .add)
    {es : List (Outcome ρ × ℚ)}
    (hes : ∀ e ∈ es, ∃ n m, operands (μ := ℚ) e.1.atoms = .ok (n, m)) (mixture : Law ρ ℚ) :
    ∃ d, mixSums limits es mixture = .ok d := by
  induction es generalizing mixture with
  | nil => exact ⟨mixture, rfl⟩
  | cons e es ih =>
    rw [List.forall_mem_cons] at hes
    obtain ⟨n, m, hop⟩ := hes.1
    obtain ⟨part, hpart⟩ := exists_sumLaw hlimits hadd (ρ := ρ) n m
    obtain ⟨d, hd⟩ := ih hes.2 (mixture.addScaled e.2 part)
    exact ⟨d, Except.bind_eq_ok_iff.2 ⟨_, hop, Except.bind_eq_ok_iff.2 ⟨_, hpart, hd⟩⟩⟩

/-- The operands of a roll stand for rolls exactly if they are numbers of dice and of sides. -/
lemma each_operands_iff (hl : l.IsNumeric) (hl' : l'.IsNumeric) (hone : l.IsNormalized)
    (hone' : l'.IsNormalized) :
    ((l.product l').Each fun o _ => ∃ n m, operands (μ := ℚ) o.atoms = .ok (n, m)) ↔
      (l.Each fun o _ => IsCount o) ∧ l'.Each fun o _ => IsSides o := by
  have hinv : IsInvariant fun o : Outcome ρ => ∃ n m, operands (μ := ℚ) o.atoms = .ok (n, m) :=
    fun o p h => propext (exists_congr fun n => exists_congr fun m => operands_congr h)
  have hpair {e e' : Outcome ρ × ℚ} (he : e ∈ l.entries) (he' : e' ∈ l'.entries) :
      (∃ n m, operands (μ := ℚ) (e.1 ++ e'.1).atoms = .ok (n, m)) ↔
        IsCount e.1 ∧ IsSides e'.1 := by
    obtain ⟨⟨x, hx⟩, _⟩ := hl e he
    obtain ⟨⟨y, hy⟩, _⟩ := hl' e' he'
    constructor
    · rintro ⟨n, m, hop⟩
      obtain ⟨x', y', hxy, hn, hm⟩ := operands_eq_ok_iff.1 hop
      rw [hx, hy] at hxy
      cases hxy
      exact ⟨⟨x, n, hx, hn⟩, y, m, hy, hm⟩
    · rintro ⟨⟨x', n, hx', hn⟩, y', m, hy', hm⟩
      exact ⟨n, m, operands_eq_ok_iff.2 ⟨x', y', by rw [hx', hy']; rfl, hn, hm⟩⟩
  rw [Law.each_product_iff hinv hl.pos hl'.pos, ← Law.each_and_iff hone hone']
  exact forall₂_congr fun e he => forall₂_congr fun e' he' => hpair he he'

/-- The operands of a roll that has a law are numbers of dice and of sides. -/
lemma each_of_law (hl : l.IsNumeric) (hl' : l'.IsNumeric) (hone : l.IsNormalized)
    (hone' : l'.IsNormalized) (h : law limits l l' = .ok d) :
    (l.Each fun o _ => IsCount o) ∧ l'.Each fun o _ => IsSides o := by
  rw [← each_operands_iff hl hl' hone hone']
  intro e he
  obtain ⟨n, m, hop, -⟩ := of_mixSums (mixSums_of_law h) e he
  exact ⟨n, m, hop⟩

/-- Without a limit of outcomes, a roll has a law exactly if its operands are numbers of dice and
of sides. -/
theorem law_isOk_iff (hlimits : limits.maxOutcomes = none) (hadd : Operator.IsCongruent ρ .add)
    (hl : l.IsNumeric) (hl' : l'.IsNumeric) (hone : l.IsNormalized) (hone' : l'.IsNormalized) :
    (∃ d, law limits l l' = .ok d) ↔
      (l.Each fun o _ => IsCount o) ∧ l'.Each fun o _ => IsSides o := by
  refine ⟨fun ⟨d, hd⟩ => each_of_law hl hl' hone hone' hd, fun h => ?_⟩
  obtain ⟨d, hd⟩ :=
    exists_mixSums hlimits hadd ((each_operands_iff hl hl' hone hone').2 h) .empty
  exact ⟨d, Except.bind_eq_ok_iff.2 ⟨_, Limits.product_eq_ok hlimits l l', hd⟩⟩

end Dice

end DiceCalculus
