import DiceCalculus.Proofs.Congruence
import DiceCalculus.Proofs.Table.Same

set_option autoImplicit false
set_option relaxedAutoImplicit false

/-!
# Laws with outcomes in other forms

Two laws are the same up to written forms if they have the same masses, to the last bit, at outcomes
that compare equal. Whatever is computed of laws is computed alike of both: the laws that come of it
are the same up to written forms again, or the failures are.

## Main definitions

* `Fault.Same` — causes of a failure that are the same up to the form of a number that they name.
* `Law.Same` — laws with the same masses at outcomes that compare equal.

## Main results

* `Operator.rel_apply` — an operator at operands that compare equal.
* `Law.Same.operate`, `Law.rel_maximum` — operators and maxima of laws.
* `Dice.rel_law`, `Dice.rel_laws` — rolls, as sums and die by die.

## Design

What is asked of the arithmetic of reals is `Scalar.IsCongruent`, and of masses nothing: they are
computed from the same masses in the same order.
-/

namespace DiceCalculus

variable {ρ μ : Type} [Scalar ρ]

/-! ## Causes of a failure -/

/-- Causes that are the same up to the form of the number that they name. -/
inductive Fault.Same : Fault ρ μ → Fault ρ μ → Prop where
  /-- One cause. -/
  | refl (f : Fault ρ μ) : Same f f
  /-- Numbers of dice that compare equal. -/
  | badCount {x x' : Number ρ} (h : compare x x' = .eq) : Same (.badCount x) (.badCount x')
  /-- Numbers of sides that compare equal. -/
  | badSides {x x' : Number ρ} (h : compare x x' = .eq) : Same (.badSides x) (.badSides x')

/-- A calculation has the same failures as itself. -/
lemma Fault.rel_refl {α : Type} {P : α → α → Prop} (hP : ∀ a, P a a) (x : Except (Fault ρ μ) α) :
    Except.Rel Fault.Same P x x := .refl .refl hP x

/-- Failures for one cause are for the same cause. -/
lemma Fault.rel_of_eq {α β : Type} {P : α → β → Prop} {x : Except (Fault ρ μ) α}
    {y : Except (Fault ρ μ) β} (h : Except.Rel Eq P x y) : Except.Rel Fault.Same P x y :=
  h.mono (fun f _ hf => hf ▸ .refl f) fun _ _ h => h

/-! ## Numbers and atoms -/

/-- Atoms that compare equal: both are absent, or both are numbers that compare equal. -/
lemma Atom.eq_or_number_of_compare {a a' : Atom ρ} (h : compare a a' = .eq) :
    a = .absent ∧ a' = .absent ∨
      ∃ x x', a = .number x ∧ a' = .number x' ∧ compare x x' = .eq := by
  cases a with
  | absent =>
    cases a' with
    | absent => exact .inl ⟨rfl, rfl⟩
    | number x' => cases h
  | number x =>
    cases a' with
    | absent => cases h
    | number x' => exact .inr ⟨x, x', rfl, rfl, h⟩

namespace Operator

variable {op : Operator}

/-- An operator at operands that compare equal has results that compare equal, or fails at both for
the same cause. -/
theorem rel_apply (hop : op.IsCongruent ρ) {x x' y y' : Number ρ} (hx : compare x x' = .eq)
    (hy : compare y y' = .eq) :
    Except.Rel Eq (fun z z' => compare z z' = .eq) (op.apply (μ := μ) x y) (op.apply x' y') := by
  have h := hop x x' y y' hx hy
  unfold apply
  generalize op.value? x y = z, op.value? x' y' = z' at h
  cases h with
  | none => exact .error rfl
  | some h => exact .ok h

/-- An operator has no value at an outcome that is not a pair. -/
lemma combine_of_length_ne {as : List (Atom ρ)} (h : as.length ≠ 2) :
    op.combine (μ := μ) as = .error (.wrongArity op as.length) := by
  unfold combine
  split
  · exact absurd rfl h
  · exact absurd rfl h
  · rfl

/-- An operator at outcomes that compare equal has values that compare equal, or fails at both for the
same cause. -/
lemma rel_combine (hop : op.IsCongruent ρ) {o o' : Outcome ρ} (h : compare o o' = .eq) :
    Except.Rel Fault.Same (fun a a' => compare a a' = .eq) (op.combine (μ := μ) o.atoms)
      (op.combine o'.atoms) := by
  rw [Outcome.compare_eq_iff] at h
  generalize o.atoms = as, o'.atoms = as' at h
  by_cases hpair : as.length = 2
  · obtain ⟨a, b, rfl⟩ := List.length_eq_two.1 hpair
    obtain _ | ⟨ha, _ | ⟨hb, ⟨⟩⟩⟩ := h
    rcases Atom.eq_or_number_of_compare ha with ⟨rfl, rfl⟩ | ⟨x, x', rfl, rfl, hx⟩
    · exact .error (.refl _)
    · rcases Atom.eq_or_number_of_compare hb with ⟨rfl, rfl⟩ | ⟨y, y', rfl, rfl, hy⟩
      · exact .error (.refl _)
      · exact (Fault.rel_of_eq (rel_apply hop hx hy)).map fun _ _ h => h
  · rw [combine_of_length_ne hpair, combine_of_length_ne (h.length_eq ▸ hpair), h.length_eq]
    exact .error (.refl _)

end Operator

/-! ## Laws that are built -/

/-- Laws with the same masses at outcomes that compare equal. -/
def Law.Same (l l' : Law ρ μ) : Prop := Table.Same l l'

namespace Law

/-- A law has the same masses as itself. -/
lemma Same.refl (l : Law ρ μ) : l.Same l := Table.Same.refl l

variable [Mass μ] {l l' d d' : Law ρ μ}

/-- Constants that compare equal have the same law. -/
lemma same_certain {a a' : Atom ρ} (h : compare a a' = .eq) :
    (certain a : Law ρ μ).Same (certain a') :=
  Table.same_ofEntries (.cons ⟨(Outcome.compare_single_eq_iff a a').2 h, rfl⟩ .nil)

/-- Joint laws. -/
lemma Same.product (hl : l.Same l') (hd : d.Same d') : (l.product d).Same (l'.product d') := by
  refine Table.same_ofEntries (List.rel_flatMap hl fun e e' he => ?_)
  refine List.rel_map (fun f f' hf => ?_) hd
  exact ⟨Outcome.compare_append_eq he.1 hf.1, congrArg₂ (· * ·) he.2 hf.2⟩

/-- Laws of functions with values that compare equal at outcomes that do. -/
lemma Same.fold {ε ε' : Type} {E : ε → ε' → Prop} (hl : l.Same l')
    {f : List (Atom ρ) → Except ε (Atom ρ)} {f' : List (Atom ρ) → Except ε' (Atom ρ)}
    (hf : ∀ o o' : Outcome ρ, compare o o' = .eq →
      Except.Rel E (fun a a' => compare a a' = .eq) (f o.atoms) (f' o'.atoms)) :
    Except.Rel E Same (l.fold f) (l'.fold f') := by
  refine Except.Rel.bind (Except.Rel.mapM hl fun e e' he => ?_) fun es es' hes =>
    .ok (Table.same_ofEntries hes)
  refine (hf e.1 e'.1 he.1).bind fun a a' ha => .ok ?_
  exact ⟨(Outcome.compare_single_eq_iff a a').2 ha, he.2⟩

/-- Mixtures. -/
lemma Same.addScaled (hl : l.Same l') (weight : μ) (hd : d.Same d') :
    (l.addScaled weight d).Same (l'.addScaled weight d') :=
  Table.Same.addAll hl (Table.forall₂_entrySame_map hd (· * weight))

/-- The mass of all outcomes. -/
lemma Same.total_eq (hl : l.Same l') : l.total = l'.total :=
  congrArg (List.foldl (· + ·) Mass.neutral) (Table.Same.values_eq hl)

/-- The mass of outcomes that compare equal. -/
lemma Same.massOf_eq (hl : l.Same l') (a : Atom ρ) : l.massOf a = l'.massOf a :=
  congrArg (Option.getD · 0) (Table.Same.find? hl Std.ReflCmp.compare_self)

end Law

variable [Mass μ] (limits : Limits μ) {l l' d d' : Law ρ μ}

/-- Joint laws within the limit of outcomes. -/
lemma Limits.rel_product (hl : l.Same l') (hd : d.Same d') :
    Except.Rel Fault.Same Law.Same (limits.product l d) (limits.product l' d') := by
  have hsize : limits.checkOutcomes (ρ := ρ) (l.size * d.size) =
      limits.checkOutcomes (l'.size * d'.size) := by
    rw [Table.Same.size_eq hl, Table.Same.size_eq hd]
  unfold Limits.product
  rw [hsize]
  exact (Fault.rel_refl (fun _ => rfl) _).bind fun _ _ (_ : () = ()) => .ok (hl.product hd)

namespace Law

/-- An operator between laws. -/
theorem Same.operate {op : Operator} (hop : op.IsCongruent ρ) (hl : l.Same l') (hd : d.Same d') :
    Except.Rel Fault.Same Same (operate limits op l d) (operate limits op l' d') := by
  refine (limits.rel_product hl hd).bind fun joint joint' hjoint => ?_
  exact hjoint.fold fun _ _ => Operator.rel_combine hop

/-- The greatest of a list of numbers and of one that is given from the start. -/
lemma rel_maximumFrom (hl : l.Same l') {ls ls' : List (Law ρ μ)} (hls : List.Forall₂ Same ls ls') :
    Except.Rel Fault.Same Same (maximumFrom limits l ls) (maximumFrom limits l' ls') := by
  induction hls generalizing l l' with
  | nil => exact .ok hl
  | cons hd _ ih =>
    refine (limits.rel_product hl hd).bind fun joint joint' hjoint => ?_
    refine (hjoint.fold fun o o' ho => ?_).bind fun _ _ => ih
    have hgreatest := Outcome.isCongruent_greatest o o' ho
    exact .ok hgreatest

/-- The greatest of a list of numbers. -/
theorem rel_maximum {ls ls' : List (Law ρ μ)} (hls : List.Forall₂ Same ls ls') :
    Except.Rel Fault.Same Same (maximum limits ls) (maximum limits ls') :=
  rel_maximumFrom limits (.refl _) hls

end Law

/-! ## Rolls -/

namespace Dice

section Operands

omit [Mass μ]

/-- Numbers of dice that compare equal. -/
lemma rel_count {x x' : Number ρ} (h : compare x x' = .eq) :
    Except.Rel Fault.Same Eq (count (μ := μ) x) (count x') := by
  unfold count
  rw [Number.toInt32?_congr h]
  cases x'.toInt32? with
  | none => exact .error (.badCount h)
  | some i =>
    by_cases hi : 0 ≤ i.toInt
    · simp only [hi, if_true]
      exact .ok rfl
    · simp only [hi, if_false]
      exact .error (.badCount h)

/-- Numbers of sides that compare equal. -/
lemma rel_sides {x x' : Number ρ} (h : compare x x' = .eq) :
    Except.Rel Fault.Same Eq (sides (μ := μ) x) (sides x') := by
  unfold sides
  rw [Number.toInt32?_congr h]
  cases x'.toInt32? with
  | none => exact .error (.badSides h)
  | some i =>
    by_cases hi : 0 < i.toInt
    · simp only [hi, if_true]
      exact .ok rfl
    · simp only [hi, if_false]
      exact .error (.badSides h)

/-- Atoms that compare equal, as numbers. -/
lemma rel_number {a a' : Atom ρ} (h : compare a a' = .eq) :
    Except.Rel Fault.Same (fun x x' => compare x x' = .eq) (number (μ := μ) a) (number a') := by
  rcases Atom.eq_or_number_of_compare h with ⟨rfl, rfl⟩ | ⟨x, x', rfl, rfl, hx⟩
  · exact .error (.refl _)
  · exact .ok hx

/-- Outcomes that compare equal, as numbers. -/
lemma rel_scalar {o o' : Outcome ρ} (h : compare o o' = .eq) :
    Except.Rel Fault.Same (fun x x' => compare x x' = .eq) (scalar (μ := μ) o) (scalar o') := by
  obtain ⟨a, as⟩ := o
  obtain ⟨a', as'⟩ := o'
  rw [Outcome.compare_eq_iff] at h
  have hlength := h.length_eq
  obtain ⟨ha, has⟩ := List.forall₂_cons.1 h
  cases has with
  | nil => exact rel_number ha
  | cons _ _ =>
    show Except.Rel _ _ (Except.error (Fault.compoundOperand _))
      (Except.error (Fault.compoundOperand _))
    unfold Outcome.arity
    rw [hlength]
    exact .error (.refl _)

/-- An outcome that is not a pair has no operands of a roll. -/
lemma operands_of_length_ne {as : List (Atom ρ)} (h : as.length ≠ 2) :
    operands (μ := μ) as = .error (.compoundOperand as.length) := by
  unfold operands
  split
  · exact absurd rfl h
  · rfl

/-- Joint outcomes that compare equal, as the operands of a roll. -/
lemma rel_operands {o o' : Outcome ρ} (h : compare o o' = .eq) :
    Except.Rel Fault.Same Eq (operands (μ := μ) o.atoms) (operands o'.atoms) := by
  rw [Outcome.compare_eq_iff] at h
  generalize o.atoms = as, o'.atoms = as' at h
  by_cases hpair : as.length = 2
  · obtain ⟨a, b, rfl⟩ := List.length_eq_two.1 hpair
    obtain _ | ⟨ha, _ | ⟨hb, ⟨⟩⟩⟩ := h
    refine (rel_number ha).bind fun x x' hx => (rel_count hx).bind fun n n' hn => ?_
    refine (rel_number hb).bind fun y y' hy => (rel_sides hy).bind fun m m' hm => ?_
    exact .ok (congrArg₂ Prod.mk hn hm)
  · rw [operands_of_length_ne hpair, operands_of_length_ne (h.length_eq ▸ hpair), h.length_eq]
    exact .error (.refl _)

end Operands

/-- The sums of rolls, added to a mixture. -/
lemma rel_mixSums {es es' : List (Outcome ρ × μ)} (h : List.Forall₂ Table.EntrySame es es')
    (hl : l.Same l') :
    Except.Rel Fault.Same Law.Same (mixSums limits es l) (mixSums limits es' l') := by
  induction h generalizing l l' with
  | nil => exact .ok hl
  | @cons e e' _ _ he _ ih =>
    obtain ⟨o, p⟩ := e
    obtain ⟨o', p'⟩ := e'
    obtain ⟨ho, rfl⟩ : compare o o' = .eq ∧ p = p' := he
    refine (rel_operands ho).bind fun nm nm' hnm => ?_
    subst hnm
    refine (Fault.rel_refl .refl _).bind fun sum sum' hsum => ih (hl.addScaled p hsum)

/-- The sum of a roll whose operands have laws. -/
theorem rel_law (hl : l.Same l') (hd : d.Same d') :
    Except.Rel Fault.Same Law.Same (law limits l d) (law limits l' d') :=
  (limits.rel_product hl hd).bind fun _ _ hjoint => rel_mixSums limits hjoint (.refl _)

/-- The faces of a die whose number of sides has a law. -/
lemma rel_weightedFaces (hl : l.Same l') :
    Except.Rel Fault.Same (List.Forall₂ Law.Same) (weightedFaces limits l)
      (weightedFaces limits l') := by
  refine Except.Rel.mapM hl fun e e' he => ?_
  refine (rel_scalar he.1).bind fun x x' hx => (rel_sides hx).bind fun n n' hn => ?_
  subst hn
  rw [he.2]
  exact (Fault.rel_refl .refl _).bind fun die die' hdie => .ok (Law.Same.addScaled (.refl _) _ hdie)

omit [Mass μ] in
/-- The greatest number of dice. -/
lemma rel_greatestCount (hl : l.Same l') :
    Except.Rel Fault.Same Eq (greatestCount (μ := μ) l.keys) (greatestCount l'.keys) := by
  have hkeys : List.Forall₂ (fun o o' => compare o o' = .eq) l.keys l'.keys :=
    List.rel_map (fun _ _ he => he.1) hl
  refine (Except.Rel.mapM hkeys fun o o' ho => (rel_scalar ho).bind fun _ _ => rel_count).bind
    fun ns ns' hns => ?_
  rw [List.forall₂_eq_eq_eq] at hns
  exact .ok (congrArg (List.foldl max 0) hns)

/-- The mass with which a number of dice reaches a position. -/
lemma rel_reach (hl : l.Same l') (position : Nat) :
    Except.Rel Fault.Same Eq (reach l position) (reach l' position) := by
  have hge : Operator.ge.IsCongruent ρ := Operator.isCongruent_of_isComparison rfl
  refine ((hl.product (.refl _)).fold fun o o' ho => Operator.rel_combine hge ho).bind
    fun reached reached' hreached => .ok ?_
  exact hreached.massOf_eq _

/-- The law of the die at a position that is reached with some mass. -/
lemma same_dieLaw {faces faces' : List (Law ρ μ)} (h : List.Forall₂ Law.Same faces faces')
    (reached : μ) : (dieLaw faces reached).Same (dieLaw faces' reached) := by
  have hfold {die die' : Law ρ μ} (hdie : die.Same die') :
      (faces.foldl (fun die face => Law.addScaled die reached face) die).Same
        (faces'.foldl (fun die face => Law.addScaled die reached face) die') := by
    induction h generalizing die die' with
    | nil => exact hdie
    | cons hface _ ih => exact ih (hdie.addScaled reached hface)
  unfold dieLaw
  simp only
  split
  · exact (hfold (.refl _)).addScaled _ (.refl _)
  · exact hfold (.refl _)

/-- The dice of a roll whose operands have laws. -/
theorem rel_laws (hl : l.Same l') (hd : d.Same d') :
    Except.Rel Fault.Same (List.Forall₂ Law.Same) (laws limits l d) (laws limits l' d') := by
  refine (rel_weightedFaces limits hd).bind fun faces faces' hfaces => ?_
  refine (rel_greatestCount hl).bind fun n n' hn => ?_
  subst hn
  refine Except.Rel.mapM (List.forall₂_same.2 fun _ _ => rfl) fun i j hij => ?_
  subst hij
  refine (rel_reach hl (i + 1)).bind fun p p' hp => .ok ?_
  subst hp
  exact same_dieLaw hfaces p

end Dice

end DiceCalculus
