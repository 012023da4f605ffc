import DiceCalculus.Proofs.Congruence

set_option autoImplicit false
set_option relaxedAutoImplicit false

/-!
# Masses that sum up to one

No operation on laws loses or invents probability: what is computed from laws whose masses are not
negative and sum up to one has such masses again.

## Main results

* `Limits.product_eq_ok_iff`, `Limits.uniform_eq_ok_iff` — limits do not change a result.
* `Law.isNormalized_certain`, `Law.isNormalized_uniform`, `Law.IsNormalized.product`,
  `Law.IsNormalized.fold` — the operations.
* `Law.IsNormalized.operate`, `Law.isNormalized_of_maximum` — operators and maxima.
* `Dice.integral_mixSums` — the mixture over the operands of a roll.
* `Dice.isNormalized_of_law`, `Dice.isNormalized_of_laws` — the sum of a roll and its dice.

## Design

That masses are not negative passes from entries to laws by the `Law.each_` lemmas. That they sum
up to one is a fact about the integral of the constant one, which is invariant; so nothing is
assumed about the arithmetic of reals.
-/

namespace DiceCalculus

variable {ρ : Type} [Scalar ρ]

open Outcome

/-! ## Limits -/

namespace Limits

variable {μ : Type} {limits : Limits μ}

omit [Scalar ρ] in
/-- The limit of outcomes is kept exactly if it allows their number. -/
lemma checkOutcomes_eq_ok_iff {outcomes : Nat} {u : Unit} :
    limits.checkOutcomes (ρ := ρ) outcomes = .ok u ↔ allows limits.maxOutcomes outcomes := by
  unfold checkOutcomes allows
  cases limits.maxOutcomes with
  | none => exact iff_of_true rfl rfl
  | some limit => by_cases h : outcomes ≤ limit <;> simp [h]

variable [Mass μ] {l l' d : Law ρ μ}

omit [Mass μ] in
/-- A law that is given once its number of outcomes is allowed. -/
lemma checked_eq_ok_iff {outcomes : Nat} :
    (do limits.checkOutcomes outcomes; return l : Except (Fault ρ μ) (Law ρ μ)) = .ok d ↔
      allows limits.maxOutcomes outcomes ∧ d = l := by
  rw [Except.bind_eq_ok_iff]
  constructor
  · rintro ⟨_, hcheck, h⟩
    exact ⟨checkOutcomes_eq_ok_iff.1 hcheck, (Except.pure_eq_ok_iff.1 h).symm⟩
  · rintro ⟨hallows, rfl⟩
    exact ⟨(), checkOutcomes_eq_ok_iff.2 hallows, rfl⟩

/-- There is the joint law, and no other, if the limit allows the number of pairs. -/
theorem product_eq_ok_iff :
    limits.product l l' = .ok d ↔ allows limits.maxOutcomes (l.size * l'.size) ∧ d = l.product l' :=
  checked_eq_ok_iff

/-- There is the die, and no other, if the limit allows its number of sides. -/
theorem uniform_eq_ok_iff {sides : Nat} :
    limits.uniform sides = .ok d ↔ allows limits.maxOutcomes sides ∧ d = .uniform sides :=
  checked_eq_ok_iff

/-- A joint law within the limits is the joint law. -/
lemma eq_product_of_ok (h : limits.product l l' = .ok d) : d = l.product l' :=
  (product_eq_ok_iff.1 h).2

/-- A die within the limits is the die. -/
lemma eq_uniform_of_ok {sides : Nat} (h : limits.uniform sides = .ok d) : d = .uniform sides :=
  (uniform_eq_ok_iff.1 h).2

/-- Without a limit of outcomes there is every joint law. -/
lemma product_eq_ok (h : limits.maxOutcomes = none) (l l' : Law ρ μ) :
    limits.product l l' = .ok (l.product l') :=
  product_eq_ok_iff.2 ⟨by rw [h]; rfl, rfl⟩

/-- Without a limit of outcomes there is every die. -/
lemma uniform_eq_ok (h : limits.maxOutcomes = none) (sides : Nat) :
    limits.uniform sides = .ok (.uniform sides : Law ρ μ) :=
  uniform_eq_ok_iff.2 ⟨by rw [h]; rfl, rfl⟩

end Limits

variable {limits : Limits ℚ}

namespace Law

variable {l l' d : Law ρ ℚ}

/-! ## The operations -/

/-- Masses that are not negative stay so when they are added at one outcome. -/
lemma isKeyPredicate_nonneg :
    Table.IsKeyPredicate fun (_ : Outcome ρ) (p : ℚ) => 0 ≤ p := fun _ _ _ _ h => h

/-- A constant does not depend on how numbers are written. -/
lemma isInvariant_const (c : ℚ) : IsInvariant fun _ : Outcome ρ => c := fun _ _ _ => rfl

/-- The law of a constant has mass one. -/
theorem isNormalized_certain (a : Atom ρ) : (certain a : Law ρ ℚ).IsNormalized where
  nonneg := by
    unfold Each
    rw [entries_certain]
    simp
  total := integral_certain a _

/-- A fair die has no negative masses. -/
lemma nonneg_uniform (sides : Nat) : Each (fun _ p => 0 ≤ p) (uniform sides : Law ρ ℚ) := by
  refine each_ofEntries isKeyPredicate_nonneg (fun _ _ _ => add_nonneg) fun e he => ?_
  obtain ⟨i, _, rfl⟩ := List.mem_map.1 he
  show (0 : ℚ) ≤ 1 / sides
  positivity

/-- A fair die has mass one. -/
theorem isNormalized_uniform {sides : Nat} (hsides : 0 < sides) :
    (uniform sides : Law ρ ℚ).IsNormalized where
  nonneg := nonneg_uniform sides
  total := by
    have hne : (sides : ℚ) ≠ 0 := by exact_mod_cast hsides.ne'
    rw [integral_uniform (isInvariant_const 1)]
    simp [hne]

/-- Joint laws have no negative masses. -/
lemma nonneg_product (hl : l.Each fun _ p => 0 ≤ p) (hl' : l'.Each fun _ p => 0 ≤ p) :
    (l.product l').Each fun _ p => 0 ≤ p :=
  each_product isKeyPredicate_nonneg (fun _ _ _ => add_nonneg) fun e he e' he' =>
    mul_nonneg (hl e he) (hl' e' he')

/-- A joint law has mass one. -/
theorem IsNormalized.product (hl : l.IsNormalized) (hl' : l'.IsNormalized) :
    (l.product l').IsNormalized where
  nonneg := nonneg_product hl.nonneg hl'.nonneg
  total := by rw [integral_product (isInvariant_const 1), hl'.total, hl.total]

/-- The law of a function has mass one. -/
lemma IsNormalized.image (hl : l.IsNormalized) (f : Outcome ρ → Atom ρ) :
    (l.image f).IsNormalized where
  nonneg := each_image isKeyPredicate_nonneg (fun _ _ _ => add_nonneg) hl.nonneg
  total := by rw [integral_image (isInvariant_const 1), hl.total]

/-- A folded law has mass one. -/
theorem IsNormalized.fold (hl : l.IsNormalized) {ε : Type}
    {f : List (Atom ρ) → Except ε (Atom ρ)} (h : l.fold f = .ok d) : d.IsNormalized := by
  obtain ⟨_, rfl⟩ := fold_eq_ok_iff.1 h
  exact hl.image _

/-- A weighted law added to another has no negative masses. -/
lemma nonneg_addScaled {target : Law ρ ℚ} {weight : ℚ} (htarget : target.Each fun _ p => 0 ≤ p)
    (hweight : 0 ≤ weight) (hl : l.Each fun _ p => 0 ≤ p) :
    (target.addScaled weight l).Each fun _ p => 0 ≤ p :=
  each_addScaled isKeyPredicate_nonneg (fun _ _ _ => add_nonneg) htarget fun e he =>
    mul_nonneg (hl e he) hweight

/-- The law without outcomes has no negative masses. -/
lemma nonneg_empty : Each (fun _ p => 0 ≤ p) (Table.empty : Law ρ ℚ) :=
  fun _ he => absurd he List.not_mem_nil

/-- No outcome has more mass than all of them. -/
lemma IsNormalized.mass_le_one (hl : l.IsNormalized) (o : Outcome ρ) : l.mass o ≤ 1 := by
  rw [mass_eq_integral, ← hl.total]
  refine integral_mono hl.nonneg fun e _ => ?_
  unfold indicator
  split <;> norm_num

/-! ## Operators and maxima -/

/-- An operator between laws has mass one. -/
theorem IsNormalized.operate (hl : l.IsNormalized) (hl' : l'.IsNormalized) {op : Operator}
    (h : operate limits op l l' = .ok d) : d.IsNormalized := by
  obtain ⟨joint, hjoint, h⟩ := Except.bind_eq_ok_iff.1 h
  obtain rfl := Limits.eq_product_of_ok hjoint
  exact (hl.product hl').fold h

/-- The maximum of a law and of a list of laws has mass one. -/
lemma isNormalized_of_maximumFrom {start : Law ρ ℚ} {ls : List (Law ρ ℚ)}
    (hstart : start.IsNormalized) (hls : ∀ l ∈ ls, l.IsNormalized)
    (h : maximumFrom limits start ls = .ok d) : d.IsNormalized := by
  induction ls generalizing start with
  | nil => exact Except.ok.inj h ▸ hstart
  | cons l ls ih =>
    rw [List.forall_mem_cons] at hls
    obtain ⟨joint, hjoint, h⟩ := Except.bind_eq_ok_iff.1 h
    obtain rfl := Limits.eq_product_of_ok hjoint
    obtain ⟨greatest, hgreatest, h⟩ := Except.bind_eq_ok_iff.1 h
    exact ih ((hstart.product hls.1).fold hgreatest) hls.2 h

/-- The maximum of a list of laws has mass one. -/
theorem isNormalized_of_maximum {ls : List (Law ρ ℚ)} (hls : ∀ l ∈ ls, l.IsNormalized)
    (h : maximum limits ls = .ok d) : d.IsNormalized :=
  isNormalized_of_maximumFrom (isNormalized_certain _) hls h

end Law

/-! ## Sums of dice -/

namespace Dice

variable {l l' d : Law ρ ℚ}

/-- Adding dice to a law keeps its mass. -/
lemma isNormalized_of_addDice {die sum : Law ρ ℚ} (hdie : die.IsNormalized) {count : Nat}
    (hsum : sum.IsNormalized) (h : addDice limits die count sum = .ok d) : d.IsNormalized := by
  induction count generalizing sum with
  | zero => exact Except.ok.inj h ▸ hsum
  | succ count ih =>
    obtain ⟨next, hnext, h⟩ := Except.bind_eq_ok_iff.1 h
    exact ih (hsum.operate hdie hnext) h

/-- The sum of dice has mass one. -/
lemma isNormalized_of_sumLaw {count sides : Nat} (hsides : 0 < sides)
    (h : sumLaw limits count sides = .ok d) : d.IsNormalized := by
  obtain ⟨die, hdie, h⟩ := Except.bind_eq_ok_iff.1 h
  obtain rfl := Limits.eq_uniform_of_ok hdie
  exact isNormalized_of_addDice (Law.isNormalized_uniform hsides) (Law.isNormalized_certain _) h

/-- The law of the sum of the roll that an outcome stands for. -/
def rollLaw (limits : Limits ℚ) (o : Outcome ρ) : Law ρ ℚ :=
  (do
    let (n, m) ← operands o.atoms
    sumLaw limits n m).toOption.getD .empty

/-- The law of the sum of a roll with known operands. -/
lemma rollLaw_eq {o : Outcome ρ} {n m : Nat} {sum : Law ρ ℚ}
    (hop : operands (μ := ℚ) o.atoms = .ok (n, m)) (hsum : sumLaw limits n m = .ok sum) :
    rollLaw limits o = sum :=
  Except.getD_toOption (Except.bind_eq_ok_iff.2 ⟨_, hop, hsum⟩) _

/-- A mixture over operands has a result if all of them are numbers of dice and of sides whose sum
has a law. -/
lemma of_mixSums {es : List (Outcome ρ × ℚ)} {mixture : Law ρ ℚ}
    (h : mixSums limits es mixture = .ok d) : ∀ e ∈ es, ∃ n m,
      operands (μ := ℚ) e.1.atoms = .ok (n, m) ∧ sumLaw limits n m = .ok (rollLaw limits e.1) := by
  induction es generalizing mixture with
  | nil => simp
  | cons e es ih =>
    obtain ⟨⟨n, m⟩, hop, h⟩ := Except.bind_eq_ok_iff.1 h
    obtain ⟨sum, hsum, h⟩ := Except.bind_eq_ok_iff.1 h
    exact List.forall_mem_cons.2 ⟨⟨n, m, hop, rollLaw_eq hop hsum ▸ hsum⟩, ih h⟩

/-- The integral over a mixture is the weighted sum of the integrals over its parts. -/
theorem integral_mixSums {g : Outcome ρ → ℚ} (hg : IsInvariant g) {es : List (Outcome ρ × ℚ)}
    {mixture : Law ρ ℚ} (h : mixSums limits es mixture = .ok d) :
    d.integral g =
      mixture.integral g + (es.map fun e => e.2 * (rollLaw limits e.1).integral g).sum := by
  induction es generalizing mixture with
  | nil => rw [← Except.ok.inj h, List.map_nil, List.sum_nil, add_zero]
  | cons e es ih =>
    obtain ⟨⟨n, m⟩, hop, h⟩ := Except.bind_eq_ok_iff.1 h
    obtain ⟨sum, hsum, h⟩ := Except.bind_eq_ok_iff.1 h
    rw [ih h, Law.integral_addScaled hg, List.map_cons, List.sum_cons, rollLaw_eq hop hsum,
      add_assoc]

/-- A mixture of laws without negative masses has none. -/
lemma nonneg_mixSums {es : List (Outcome ρ × ℚ)} {mixture : Law ρ ℚ} (hes : ∀ e ∈ es, 0 ≤ e.2)
    (hmixture : mixture.Each fun _ p => 0 ≤ p) (h : mixSums limits es mixture = .ok d) :
    d.Each fun _ p => 0 ≤ p := by
  induction es generalizing mixture with
  | nil => exact Except.ok.inj h ▸ hmixture
  | cons e es ih =>
    rw [List.forall_mem_cons] at hes
    obtain ⟨⟨n, m⟩, hop, h⟩ := Except.bind_eq_ok_iff.1 h
    obtain ⟨sum, hsum, h⟩ := Except.bind_eq_ok_iff.1 h
    obtain ⟨_, y, _, _, hm⟩ := operands_eq_ok_iff.1 hop
    have hsum' := isNormalized_of_sumLaw (sides_bounds hm).1 hsum
    exact ih hes.2 (Law.nonneg_addScaled hmixture hes.1 hsum'.nonneg) h

/-- The law of a roll is that of the mixture over its operands. -/
lemma mixSums_of_law (h : law limits l l' = .ok d) :
    mixSums limits (l.product l').entries .empty = .ok d := by
  obtain ⟨joint, hjoint, h⟩ := Except.bind_eq_ok_iff.1 h
  rwa [Limits.eq_product_of_ok hjoint] at h

/-- The sum of a roll has mass one. -/
theorem isNormalized_of_law (hl : l.IsNormalized) (hl' : l'.IsNormalized)
    (h : law limits l l' = .ok d) : d.IsNormalized := by
  have hmix := mixSums_of_law h
  have hjoint := hl.product hl'
  refine ⟨nonneg_mixSums hjoint.nonneg Law.nonneg_empty hmix, ?_⟩
  have hpart : ∀ e ∈ (l.product l').entries, (rollLaw limits e.1).integral (fun _ => 1) = 1 := by
    intro e he
    obtain ⟨n, m, hop, hsum⟩ := of_mixSums hmix e he
    obtain ⟨_, _, _, _, hm⟩ := operands_eq_ok_iff.1 hop
    exact (isNormalized_of_sumLaw (sides_bounds hm).1 hsum).total
  rw [integral_mixSums (Law.isInvariant_const 1) hmix, Law.integral_empty, zero_add]
  refine Eq.trans ?_ hjoint.total
  exact congrArg List.sum (List.map_congr_left fun e he => by rw [hpart e he])

/-! ## Dice by position -/

/-- The fair die with the number of sides that an outcome stands for. -/
def dieOf (o : Outcome ρ) : Law ρ ℚ :=
  (do sides (μ := ℚ) (← scalar o)).toOption.elim .empty Law.uniform

/-- The fair die with a known number of sides. -/
lemma dieOf_eq {x : Number ρ} {m : Nat} (h : sides (μ := ℚ) x = .ok m) :
    dieOf (single (.number x)) = .uniform m := by
  show (sides (μ := ℚ) x).toOption.elim .empty Law.uniform = _
  rw [h]
  rfl

/-- The faces of a die whose number of sides has a law are fair dice, each weighted by the mass of
its number of sides. -/
lemma of_weightedFaces {faces : List (Law ρ ℚ)} (h : weightedFaces limits l = .ok faces) :
    (l.Each fun o _ => ∃ x m, o = single (.number x) ∧ sides (μ := ℚ) x = .ok m) ∧
      faces = l.entries.map fun e => .addScaled .empty e.2 (dieOf e.1) := by
  have hstep {e : Outcome ρ × ℚ} {face : Law ρ ℚ} (hface : (do
      let n ← Dice.sides (← scalar e.1)
      return Law.addScaled .empty e.2 (← limits.uniform n)) = .ok face) :
      (∃ x m, e.1 = single (.number x) ∧ sides (μ := ℚ) x = .ok m) ∧
        face = .addScaled .empty e.2 (dieOf e.1) := by
    obtain ⟨x, hx, hface⟩ := Except.bind_eq_ok_iff.1 hface
    obtain ⟨m, hm, hface⟩ := Except.bind_eq_ok_iff.1 hface
    obtain ⟨die, hdie, hface⟩ := Except.bind_eq_ok_iff.1 hface
    have ho := scalar_eq_ok_iff.1 hx
    refine ⟨⟨x, m, ho, hm⟩, ?_⟩
    rw [← Except.pure_eq_ok_iff.1 hface, Limits.eq_uniform_of_ok hdie, ho, dieOf_eq hm]
  obtain ⟨hall, rfl⟩ := (Except.mapM_eq_ok_iff_map .empty).1 h
  constructor
  · intro e he
    obtain ⟨face, hface⟩ := hall e he
    exact (hstep hface).1
  · refine List.map_congr_left fun e he => ?_
    obtain ⟨face, hface⟩ := hall e he
    rw [Except.getD_toOption hface, (hstep hface).2]

/-- The integral over the faces of a die is that over the fair die of every number of sides. -/
lemma sum_integral_weightedFaces {g : Outcome ρ → ℚ} (hg : IsInvariant g)
    {faces : List (Law ρ ℚ)} (h : weightedFaces limits l = .ok faces) :
    (faces.map fun face => face.integral g).sum = l.integral fun o => (dieOf o).integral g := by
  obtain ⟨_, rfl⟩ := of_weightedFaces h
  rw [List.map_map]
  refine congrArg List.sum (List.map_congr_left fun e _ => ?_)
  exact (Law.integral_addScaled hg _ _ _).trans (zero_add _)

/-- The integral over a die that is reached with some mass, and is absent with the rest of it. -/
lemma integral_dieLaw {g : Outcome ρ → ℚ} (hg : IsInvariant g) (faces : List (Law ρ ℚ))
    {reached : ℚ} (hle : reached ≤ 1) : (dieLaw faces reached).integral g =
      reached * (faces.map fun face => face.integral g).sum
        + (1 - reached) * g (single .absent) := by
  have hfold (start : Law ρ ℚ) : (faces.foldl (fun die face => die.addScaled reached face)
      start).integral g =
        start.integral g + reached * (faces.map fun face => face.integral g).sum := by
    induction faces generalizing start with
    | nil => simp
    | cons face faces ih =>
      rw [List.foldl_cons, ih, Law.integral_addScaled hg, List.map_cons, List.sum_cons, mul_add,
        add_assoc]
  have hdie := hfold .empty
  rw [Law.integral_empty, zero_add] at hdie
  unfold dieLaw
  by_cases hmissed : Mass.isPositive (1 - reached) = true
  · rw [if_pos hmissed, Law.integral_addScaled hg, hdie, Law.integral_certain]
  · have hzero : 1 - reached = 0 := by
      rw [Mass.isPositive_iff, not_lt] at hmissed
      linarith
    rw [if_neg hmissed, hdie, hzero, zero_mul, add_zero]

/-- A die that is reached with some mass has no negative masses. -/
lemma nonneg_dieLaw {faces : List (Law ρ ℚ)} {reached : ℚ} (hpos : 0 ≤ reached)
    (hfaces : ∀ face ∈ faces, Law.Each (fun _ p => 0 ≤ p) face) :
    (dieLaw faces reached).Each fun _ p => 0 ≤ p := by
  have hfold (start : Law ρ ℚ) (hstart : start.Each fun _ p => 0 ≤ p) :
      (faces.foldl (fun die face => Law.addScaled die reached face) start).Each
        fun _ p => 0 ≤ p := by
    induction faces generalizing start with
    | nil => exact hstart
    | cons face faces ih =>
      rw [List.forall_mem_cons] at hfaces
      exact ih hfaces.2 _ (Law.nonneg_addScaled hstart hpos hfaces.1)
  have hdie := hfold .empty Law.nonneg_empty
  unfold dieLaw
  by_cases hmissed : Mass.isPositive (1 - reached) = true
  · rw [if_pos hmissed]
    exact Law.nonneg_addScaled hdie ((Mass.isPositive_iff _).1 hmissed).le
      (Law.isNormalized_certain _).nonneg
  · rw [if_neg hmissed]
    exact hdie

/-- A position is reached with a mass between zero and one. -/
lemma reach_bounds (hl : l.IsNormalized) {position : Nat} {reached : ℚ}
    (h : reach l position = .ok reached) : 0 ≤ reached ∧ reached ≤ 1 := by
  obtain ⟨d, hd, h⟩ := Except.bind_eq_ok_iff.1 h
  have hd' := (hl.product (Law.isNormalized_certain _)).fold hd
  rw [← Except.pure_eq_ok_iff.1 h]
  exact ⟨Law.mass_nonneg hd'.nonneg _, hd'.mass_le_one _⟩

/-- The dice of a roll are the faces, reached at every position up to the greatest number of
dice. -/
lemma of_laws {dice : List (Law ρ ℚ)} (h : laws limits l l' = .ok dice) :
    ∃ faces greatest, weightedFaces limits l' = .ok faces ∧
      greatestCount (μ := ℚ) l.keys = .ok greatest ∧
      (∀ i < greatest, ∃ reached, reach l (i + 1) = .ok reached) ∧
      dice = (List.range greatest).map fun i =>
        dieLaw faces ((reach l (i + 1)).toOption.getD 0) := by
  obtain ⟨faces, hfaces, h⟩ := Except.bind_eq_ok_iff.1 h
  obtain ⟨greatest, hgreatest, h⟩ := Except.bind_eq_ok_iff.1 h
  obtain ⟨hall, rfl⟩ := (Except.mapM_eq_ok_iff_map .empty).1 h
  have hreached (i : Nat) (hi : i < greatest) : ∃ reached, reach l (i + 1) = .ok reached := by
    obtain ⟨_, hdie⟩ := hall i (List.mem_range.2 hi)
    obtain ⟨reached, hreached, _⟩ := Except.bind_eq_ok_iff.1 hdie
    exact ⟨reached, hreached⟩
  refine ⟨faces, greatest, hfaces, hgreatest, hreached, List.map_congr_left fun i hi => ?_⟩
  obtain ⟨reached, hr⟩ := hreached i (List.mem_range.1 hi)
  rw [hr]
  rfl

/-- Every die of a roll has mass one. -/
theorem isNormalized_of_laws (hl : l.IsNormalized) (hl' : l'.IsNormalized)
    {dice : List (Law ρ ℚ)} (h : laws limits l l' = .ok dice) : ∀ die ∈ dice, die.IsNormalized := by
  obtain ⟨faces, greatest, hfaces, _, hreached, rfl⟩ := of_laws h
  obtain ⟨hsides, hmap⟩ := of_weightedFaces hfaces
  have hdie : l'.Each fun o _ => (dieOf o).IsNormalized := fun e he => by
    obtain ⟨x, m, ho, hm⟩ := hsides e he
    rw [ho, dieOf_eq hm]
    exact Law.isNormalized_uniform (sides_bounds hm).1
  have htotal : (faces.map fun face => face.integral fun _ => 1).sum = 1 := by
    rw [sum_integral_weightedFaces (Law.isInvariant_const 1) hfaces]
    exact (Law.integral_congr fun e he => (hdie e he).total).trans hl'.total
  have hnonneg : ∀ face ∈ faces, Law.Each (fun _ p => 0 ≤ p) face := by
    rw [hmap, List.forall_mem_map]
    exact fun e he => Law.nonneg_addScaled Law.nonneg_empty (hl'.nonneg e he) (hdie e he).nonneg
  refine List.forall_mem_map.2 fun i hi => ?_
  obtain ⟨reached, hr⟩ := hreached i (List.mem_range.1 hi)
  obtain ⟨hpos, hle⟩ := reach_bounds hl hr
  rw [Except.getD_toOption hr]
  refine ⟨nonneg_dieLaw hpos hnonneg, ?_⟩
  rw [integral_dieLaw (Law.isInvariant_const 1) faces hle, htotal]
  ring

end Dice

end DiceCalculus
