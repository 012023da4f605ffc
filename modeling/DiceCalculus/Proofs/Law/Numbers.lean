import DiceCalculus.Proofs.Congruence
import DiceCalculus.Proofs.Plan.Promise.Forms
import DiceCalculus.Proofs.Table.Keys

set_option autoImplicit false
set_option relaxedAutoImplicit false

/-!
# Laws of one number

What is computed from laws of one number is a law of one number again. A die that may be missing has
an outcome that is no number; it has one component nevertheless, and a maximum leaves it behind.

## Main definitions

* `Law.IsOver` — all outcomes have one component, with a property.
* `Law.IsOfNumbers` — all outcomes have one component, which is a number.
* `External` — a fault that is not internal.
* `Limits.IsExcess` — a fault that says that the limit of outcomes is exceeded.

## Main results

* `Law.ensures_operate`, `Law.ensures_maximum`, `Dice.ensures_law`, `Dice.ensures_laws` — calculations
  with laws of one number come to laws of one number, or fail for what a user wrote.
-/

namespace DiceCalculus

variable {ρ μ : Type} [Scalar ρ]

/-- A fault that is found in what a user wrote. -/
def External (f : Fault ρ μ) : Prop := ¬f.IsInternal

/-- An atom that is a number. -/
def Atom.IsNumber (a : Atom ρ) : Prop := ∃ x, a = .number x

namespace Law

/-- All outcomes have one component, with a property. -/
def IsOver (A : Atom ρ → Prop) (l : Law ρ μ) : Prop :=
  ∀ e ∈ l.entries, ∃ a, A a ∧ e.1 = .single a

/-- All outcomes have two components, with two properties. -/
def IsOverPairs (A B : Atom ρ → Prop) (l : Law ρ μ) : Prop :=
  ∀ e ∈ l.entries, ∃ a b, A a ∧ B b ∧ e.1 = .single a ++ .single b

/-- All outcomes have one component, which is a number. -/
def IsOfNumbers (l : Law ρ μ) : Prop := l.IsOver Atom.IsNumber

variable [Mass μ] {A B : Atom ρ → Prop} {l l' : Law ρ μ}

omit [Mass μ] in
/-- There is nothing to have in a law without outcomes. -/
lemma isOver_empty : IsOver A (Table.empty : Law ρ μ) := fun _ h => by cases h

/-- The law of a constant. -/
lemma isOver_certain {a : Atom ρ} (ha : A a) : (certain a : Law ρ μ).IsOver A :=
  Table.forall_key_ofEntries (Q := fun o : Outcome ρ => ∃ a, A a ∧ o = .single a)
    (List.forall_mem_singleton.2 ⟨a, ha, rfl⟩)

/-- The law of a number. -/
lemma isOfNumbers_certain (x : Number ρ) : (certain (.number x) : Law ρ μ).IsOfNumbers :=
  isOver_certain ⟨x, rfl⟩

/-- The law of a fair die. -/
lemma isOfNumbers_uniform (sides : Nat) : (uniform sides : Law ρ μ).IsOfNumbers :=
  Table.forall_key_ofEntries (Q := fun o : Outcome ρ => ∃ a : Atom ρ, a.IsNumber ∧ o = .single a)
    (List.forall_mem_map.2 fun _ _ => ⟨_, ⟨_, rfl⟩, rfl⟩)

/-- The joint law of two laws of one component. -/
lemma isOverPairs_product (hl : l.IsOver A) (hl' : l'.IsOver B) : (l.product l').IsOverPairs A B := by
  refine Table.forall_key_ofEntries
    (Q := fun o : Outcome ρ => ∃ a b, A a ∧ B b ∧ o = .single a ++ .single b) fun _ h => ?_
  obtain ⟨e, he, h⟩ := List.mem_flatMap.1 h
  obtain ⟨e', he', rfl⟩ := List.mem_map.1 h
  obtain ⟨a, ha, hea⟩ := hl e he
  obtain ⟨b, hb, heb⟩ := hl' e' he'
  exact ⟨a, b, ha, hb, congrArg₂ (· ++ ·) hea heb⟩

/-- A law is added to another one. -/
lemma IsOver.addScaled {target : Law ρ μ} (htarget : target.IsOver A) (weight : μ)
    (hl : l.IsOver A) : (target.addScaled weight l).IsOver A :=
  Table.forall_key_addAll (Q := fun o : Outcome ρ => ∃ a, A a ∧ o = .single a) htarget
    (List.forall_mem_map.2 hl)

/-- A branch that has a chance is added to a mixture. -/
lemma IsOver.addPositive {target : Law ρ μ} (htarget : target.IsOver A) {chance : μ}
    (hl : Mass.isPositive chance = true → l.IsOver A) : (target.addPositive chance l).IsOver A := by
  unfold Law.addPositive
  split
  · next hchance => exact htarget.addScaled chance (hl hchance)
  · exact htarget

/-- The law of a function whose values at all outcomes have a property. -/
lemma ensures_fold {F : Fault ρ μ → Prop} {f : List (Atom ρ) → Except (Fault ρ μ) (Atom ρ)}
    (hf : ∀ e ∈ l.entries, Ensures A F (f e.1.atoms)) : Ensures (IsOver A) F (l.fold f) := by
  have hentries := Ensures.mapM (R := fun e : Outcome ρ × μ => ∃ a, A a ∧ e.1 = .single a)
    fun e he => (hf e he).bind (f := fun a => .ok (Outcome.single a, e.2)) fun a ha => ⟨a, ha, rfl⟩
  refine hentries.bind fun es hes => ?_
  exact Table.forall_key_ofEntries (Q := fun o : Outcome ρ => ∃ a, A a ∧ o = .single a) hes

end Law

variable [Mass μ] (limits : Limits μ) {A B : Atom ρ → Prop} {l l' : Law ρ μ}

/-! ## Within limits -/

/-- A fault says that the limit of outcomes is exceeded. -/
def Limits.IsExcess (f : Fault ρ μ) : Prop :=
  ∃ limit, limits.maxOutcomes = some limit ∧ f = .tooManyOutcomes limit

omit [Scalar ρ] [Mass μ] in
/-- Outcomes are counted. -/
lemma Limits.ensures_checkOutcomes (outcomes : Nat) : Ensures (fun _ => True) limits.IsExcess
    (limits.checkOutcomes outcomes : Except (Fault ρ μ) Unit) := by
  unfold checkOutcomes
  split
  · next limit hlimit =>
    split
    · trivial
    · exact ⟨limit, hlimit, rfl⟩
  · trivial

/-- The joint law of two laws of one component, within the limit. -/
lemma Limits.ensures_product (hl : l.IsOver A) (hl' : l'.IsOver B) :
    Ensures (Law.IsOverPairs A B) limits.IsExcess (limits.product l l') :=
  (limits.ensures_checkOutcomes _).bind fun _ _ => Law.isOverPairs_product hl hl'

/-- The law of a fair die, within the limit. -/
lemma Limits.ensures_uniform (sides : Nat) :
    Ensures Law.IsOfNumbers limits.IsExcess (limits.uniform sides : Except (Fault ρ μ) (Law ρ μ)) :=
  (limits.ensures_checkOutcomes sides).bind fun _ _ => Law.isOfNumbers_uniform sides

variable {limits} in
omit [Scalar ρ] [Mass μ] in
/-- A limit that is exceeded is found in what a user wrote. -/
lemma External.of_excess {α : Type} {Q : α → Prop} {x : Except (Fault ρ μ) α}
    (h : Ensures Q limits.IsExcess x) : Ensures Q External x :=
  h.mono (fun _ => id) fun f hf => by
    obtain ⟨limit, -, rfl⟩ := hf
    exact id

/-! ## Operators and maxima -/

omit [Mass μ] in
/-- An operator between two numbers. -/
lemma Operator.ensures_combine (op : Operator) (x y : Number ρ) :
    Ensures Atom.IsNumber External (op.combine [.number x, .number y] : Except (Fault ρ μ) _) :=
  (op.ensures_apply (fun _ => id) x y).map fun z _ => ⟨z, rfl⟩

omit [Mass μ] in
/-- The greatest of a number and an atom is a number. -/
lemma Atom.isNumber_greatest (x : Number ρ) (b : Atom ρ) : (greatest [.number x, b]).IsNumber := by
  show (Atom.max (.number x) b).IsNumber
  unfold Atom.max
  split
  · exact ⟨x, rfl⟩
  · next h =>
    cases b with
    | absent => exact absurd rfl h
    | number y => exact ⟨y, rfl⟩

namespace Law

/-- The law of an operator between two laws of one number. -/
theorem ensures_operate (op : Operator) (hl : l.IsOfNumbers) (hl' : l'.IsOfNumbers) :
    Ensures IsOfNumbers External (operate limits op l l') := by
  refine (External.of_excess (limits.ensures_product hl hl')).bind fun joint hjoint =>
    ensures_fold fun e he => ?_
  obtain ⟨_, _, ⟨x, rfl⟩, ⟨y, rfl⟩, h⟩ := hjoint e he
  rw [h]
  exact op.ensures_combine x y

/-- A sum between two laws of one number fails for the limit of outcomes only. -/
lemma ensures_add (hl : l.IsOfNumbers) (hl' : l'.IsOfNumbers) :
    Ensures IsOfNumbers limits.IsExcess (operate limits .add l l') := by
  refine (limits.ensures_product hl hl').bind fun joint hjoint => ensures_fold fun e he => ?_
  obtain ⟨_, _, ⟨x, rfl⟩, ⟨y, rfl⟩, h⟩ := hjoint e he
  rw [h]
  exact ⟨x + y, rfl⟩

/-- The law of the greatest of a list of components and of a number. -/
lemma ensures_maximumFrom {ls : List (Law ρ μ)} (hls : ∀ l ∈ ls, l.IsOver fun _ => True)
    (hl : l.IsOfNumbers) : Ensures IsOfNumbers External (maximumFrom limits l ls) := by
  induction ls generalizing l with
  | nil => exact hl
  | cons l' ls ih =>
    rw [List.forall_mem_cons] at hls
    refine (External.of_excess (limits.ensures_product hl hls.1)).bind fun joint hjoint => ?_
    refine (ensures_fold (A := Atom.IsNumber) fun e he => ?_).bind fun d hd => ih hls.2 hd
    obtain ⟨_, b, ⟨x, rfl⟩, -, h⟩ := hjoint e he
    rw [h]
    exact Atom.isNumber_greatest x b

/-- The law of the greatest of a list of components. -/
theorem ensures_maximum {ls : List (Law ρ μ)} (hls : ∀ l ∈ ls, l.IsOver fun _ => True) :
    Ensures IsOfNumbers External (maximum limits ls) :=
  ensures_maximumFrom limits hls (isOfNumbers_certain _)

end Law

/-! ## Dice -/

namespace Dice

/-- A number of dice of one law, added to a law. -/
lemma ensures_addDice {die sum : Law ρ μ} (hdie : die.IsOfNumbers) (count : Nat)
    (hsum : sum.IsOfNumbers) :
    Ensures Law.IsOfNumbers limits.IsExcess (addDice limits die count sum) := by
  induction count generalizing sum with
  | zero => exact hsum
  | succ count ih => exact (Law.ensures_add limits hsum hdie).bind fun d hd => ih hd

/-- The sum of fair dice. -/
lemma ensures_sumLaw (count sides : Nat) : Ensures Law.IsOfNumbers limits.IsExcess
    (sumLaw limits count sides : Except (Fault ρ μ) (Law ρ μ)) :=
  (limits.ensures_uniform sides).bind fun _ hdie =>
    ensures_addDice limits hdie count (Law.isOfNumbers_certain _)

omit [Mass μ] in
/-- The operands of a roll that are two numbers. -/
lemma ensures_operands (x y : Number ρ) :
    Ensures (fun _ => True) External (operands [.number x, .number y] : Except (Fault ρ μ) _) :=
  (ensures_count (fun _ => id) x).bind fun _ _ => (ensures_sides (fun _ => id) y).bind fun _ _ =>
    trivial

/-- A mixture of sums. -/
lemma ensures_mixSums {es : List (Outcome ρ × μ)} {mixture : Law ρ μ}
    (hes : ∀ e ∈ es, ∃ a b : Atom ρ, a.IsNumber ∧ b.IsNumber ∧ e.1 = .single a ++ .single b)
    (hmixture : mixture.IsOfNumbers) :
    Ensures Law.IsOfNumbers External (mixSums limits es mixture) := by
  induction es generalizing mixture with
  | nil => exact hmixture
  | cons e es ih =>
    rw [List.forall_mem_cons] at hes
    obtain ⟨⟨_, _, ⟨x, rfl⟩, ⟨y, rfl⟩, h⟩, hes⟩ := hes
    obtain ⟨o, p⟩ := e
    obtain rfl : o = _ := h
    refine (ensures_operands x y).bind fun nm _ =>
      (External.of_excess (ensures_sumLaw limits nm.1 nm.2)).bind fun d hd => ?_
    exact ih hes (hmixture.addScaled p hd)

/-- The law of the sum of a roll. -/
theorem ensures_law (hl : l.IsOfNumbers) (hl' : l'.IsOfNumbers) :
    Ensures Law.IsOfNumbers External (law limits l l') :=
  (External.of_excess (limits.ensures_product hl hl')).bind fun _ hjoint =>
    ensures_mixSums limits hjoint Law.isOver_empty

/-- The faces of a die. -/
lemma ensures_weightedFaces (hl : l.IsOfNumbers) :
    Ensures (fun faces => ∀ face ∈ faces, face.IsOver fun _ => True) External
      (weightedFaces limits l) := by
  refine Ensures.mapM fun e he => ?_
  obtain ⟨_, ⟨x, rfl⟩, h⟩ := hl e he
  rw [h]
  refine (ensures_sides (fun _ => id) x).bind fun n _ =>
    (External.of_excess (limits.ensures_uniform n)).bind fun d hd => ?_
  have hd : d.IsOver fun _ => True := fun e he => (hd e he).imp fun _ h => ⟨trivial, h.2⟩
  exact Law.isOver_empty.addScaled e.2 hd

omit [Mass μ] in
/-- The greatest number of dice. -/
lemma ensures_greatestCount (hl : l.IsOfNumbers) :
    Ensures (fun _ => True) External (greatestCount l.keys : Except (Fault ρ μ) Nat) := by
  refine (Ensures.mapM (R := fun _ => True) (List.forall_mem_map.2 fun e he => ?_)).bind
    fun _ _ => trivial
  obtain ⟨_, ⟨x, rfl⟩, h⟩ := hl e he
  rw [h]
  exact ensures_count (fun _ => id) x

/-- The mass with which a position is reached. -/
lemma ensures_reach (hl : l.IsOfNumbers) (position : Nat) :
    Ensures (fun _ => True) External (reach l position) := by
  refine (Law.ensures_fold (A := Atom.IsNumber) fun e he => ?_).bind fun _ _ => trivial
  obtain ⟨_, _, ⟨x, rfl⟩, ⟨y, rfl⟩, h⟩ := Law.isOverPairs_product hl (Law.isOfNumbers_certain _) e he
  rw [h]
  exact Operator.ensures_combine .ge x y

/-- The law of a die that may be missing: its outcomes are those of its faces, and its absence if it is
missed with some mass. -/
lemma isOver_dieLaw {faces : List (Law ρ μ)} (hfaces : ∀ face ∈ faces, face.IsOver A) {reached : μ}
    (hmissed : Mass.isPositive (1 - reached) = true → A .absent) : (dieLaw faces reached).IsOver A := by
  have hfold {die : Law ρ μ} (hdie : die.IsOver A) :
      (faces.foldl (fun die face => Law.addScaled die reached face) die).IsOver A := by
    induction faces generalizing die with
    | nil => exact hdie
    | cons face faces ih =>
      rw [List.forall_mem_cons] at hfaces
      exact ih hfaces.2 (hdie.addScaled reached hfaces.1)
  have hdie := hfold Law.isOver_empty
  unfold dieLaw
  dsimp only
  split
  · next h => exact hdie.addScaled _ (Law.isOver_certain (hmissed h))
  · exact hdie

/-- The laws of the dice of a roll. -/
theorem ensures_laws (hl : l.IsOfNumbers) (hl' : l'.IsOfNumbers) :
    Ensures (fun ds => ∀ d ∈ ds, d.IsOver fun _ => True) External (laws limits l l') :=
  (ensures_weightedFaces limits hl').bind fun _ hfaces => (ensures_greatestCount hl).bind fun _ _ =>
    Ensures.mapM fun i _ => (ensures_reach hl (i + 1)).bind fun _ _ =>
      isOver_dieLaw hfaces fun _ => trivial

end Dice

end DiceCalculus
