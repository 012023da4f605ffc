import DiceCalculus.Proofs.Law.Integral
import DiceCalculus.Law.Dice

set_option autoImplicit false
set_option relaxedAutoImplicit false

/-!
# Numbers that compare equal

Two numbers that compare equal may be written differently, and a law keeps only one of the written
forms. What a roll, a comparison or a maximum makes of a number does not depend on its form. For
the arithmetic of reals this is an assumption.

## Main definitions

* `Scalar.IsCongruent` — operands that compare equal give results that compare equal.
* `Outcome.IsCongruent` — a function of an outcome that respects equality.

## Main results

* `Number.toInt32?_congr` — numbers that compare equal pass to the same integer.
* `Dice.count_congr`, `Dice.sides_congr` — they are the same number of dice and of sides.
* `Operator.isCongruent_of_isComparison` — comparisons need no assumption.
* `Outcome.isCongruent_combine`, `Outcome.isCongruent_greatest` — operators and maxima of outcomes.
* `Dice.operands_congr` — equal outcomes stand for the same roll.
-/

namespace DiceCalculus

variable {ρ μ : Type} [Scalar ρ]

/-! ## Operators -/

/-- An operator gives results that compare equal at operands that compare equal, and has no result
at both or at neither. -/
def Operator.IsCongruent (ρ : Type) [Scalar ρ] (op : Operator) : Prop :=
  ∀ x x' y y' : Number ρ, compare x x' = .eq → compare y y' = .eq →
    Option.Rel (fun z z' => compare z z' = .eq) (op.value? x y) (op.value? x' y')

/-- Operands that compare equal give results that compare equal, whatever the operator. -/
def Scalar.IsCongruent (ρ : Type) [Scalar ρ] : Prop := ∀ op : Operator, op.IsCongruent ρ

namespace Number

/-- Two pairs of equal numbers compare alike. -/
lemma compare_congr {x x' y y' : Number ρ} (hx : compare x x' = .eq) (hy : compare y y' = .eq) :
    compare x y = compare x' y' :=
  (Std.TransCmp.congr_left hx).trans (Std.TransCmp.congr_right hy)

/-- A number passes to an integer if it equals that integer. -/
lemma toInt32?_eq_some_iff (x : Number ρ) (i : Int32) :
    x.toInt32? = some i ↔ compare (.int i) x = .eq := by
  cases x with
  | real x => exact Scalar.toInt32?_eq_some_iff x i
  | int j =>
    show some j = some i ↔ compare i.toInt j.toInt = .eq
    rw [Option.some_inj, Int.compare_eq_eq, Int32.toInt_inj, eq_comm]

/-- Numbers that compare equal pass to the same integer. -/
theorem toInt32?_congr {x y : Number ρ} (h : compare x y = .eq) : x.toInt32? = y.toInt32? := by
  refine Option.ext fun i => ?_
  rw [toInt32?_eq_some_iff, toInt32?_eq_some_iff, Std.TransCmp.congr_right h]

/-- Of two numbers that compare equal either both are zero or neither is. -/
lemma isZero_congr {x y : Number ρ} (h : compare x y = .eq) : x.isZero = y.isZero :=
  congrArg (· == Ordering.eq) (Std.TransCmp.congr_left h)

/-- A number is zero if it compares equal to zero. -/
lemma isZero_iff (x : Number ρ) : x.isZero = true ↔ compare x zero = .eq := by
  show (compare x zero == .eq) = true ↔ _
  rw [beq_iff_eq]

end Number

/-- Comparisons give equal answers at operands that compare equal. -/
theorem Operator.isCongruent_of_isComparison {op : Operator} (h : op.isComparison = true) :
    op.IsCongruent ρ := by
  intro x x' y y' hx hy
  have hxy := Number.compare_congr hx hy
  have hrefl (z : Number ρ) : compare z z = .eq := Std.ReflCmp.compare_self
  cases op <;> first | exact absurd h (by decide) | (simp only [value?, hxy]; exact .some (hrefl _))

/-- An operator that is applied to two numbers gives its value at them, if it has one. -/
lemma Operator.apply_eq_ok_iff {op : Operator} {x y z : Number ρ} :
    op.apply (μ := μ) x y = .ok z ↔ op.value? x y = some z := by
  unfold apply
  cases op.value? x y <;> simp

/-! ## Operands of a roll -/

namespace Dice

/-- A number of dice is an integer that is not negative. -/
lemma count_eq_ok_iff {x : Number ρ} {n : Nat} :
    count (μ := μ) x = .ok n ↔ ∃ i, x.toInt32? = some i ∧ 0 ≤ i.toInt ∧ i.toInt.toNat = n := by
  unfold count
  cases x.toInt32? with
  | none => simp
  | some i => by_cases h : 0 ≤ i.toInt <;> simp [h]

/-- A number of sides is an integer that is positive. -/
lemma sides_eq_ok_iff {x : Number ρ} {m : Nat} :
    sides (μ := μ) x = .ok m ↔ ∃ i, x.toInt32? = some i ∧ 0 < i.toInt ∧ i.toInt.toNat = m := by
  unfold sides
  cases x.toInt32? with
  | none => simp
  | some i => by_cases h : 0 < i.toInt <;> simp [h]

/-- Numbers that compare equal are the same number of dice. -/
theorem count_congr {x y : Number ρ} (h : compare x y = .eq) {n : Nat} :
    count (μ := μ) x = .ok n ↔ count (μ := μ) y = .ok n := by
  rw [count_eq_ok_iff, count_eq_ok_iff, Number.toInt32?_congr h]

/-- Numbers that compare equal are the same number of sides. -/
theorem sides_congr {x y : Number ρ} (h : compare x y = .eq) {m : Nat} :
    sides (μ := μ) x = .ok m ↔ sides (μ := μ) y = .ok m := by
  rw [sides_eq_ok_iff, sides_eq_ok_iff, Number.toInt32?_congr h]

/-- A number of sides is positive and fits into the integers of 32 bits. -/
lemma sides_bounds {x : Number ρ} {m : Nat} (h : sides (μ := μ) x = .ok m) :
    0 < m ∧ m < 2 ^ 31 := by
  obtain ⟨i, _, hpos, rfl⟩ := sides_eq_ok_iff.1 h
  have hlt := i.toInt_lt
  omega

/-- A number of dice fits into the integers of 32 bits. -/
lemma count_lt {x : Number ρ} {n : Nat} (h : count (μ := μ) x = .ok n) : n < 2 ^ 31 := by
  obtain ⟨i, _, _, rfl⟩ := count_eq_ok_iff.1 h
  have hlt := i.toInt_lt
  omega

end Dice

/-! ## Outcomes -/

namespace Outcome

/-- Outcomes with one number compare as the numbers do. -/
lemma compare_number_eq_iff (x y : Number ρ) :
    compare (single (.number x)) (single (.number y)) = .eq ↔ compare x y = .eq :=
  compare_single_eq_iff _ _

/-- An outcome that equals one number has one number. -/
lemma exists_of_compare_number_eq {x : Number ρ} {o : Outcome ρ}
    (h : compare (single (.number x)) o = .eq) :
    ∃ y, o = single (.number y) ∧ compare x y = .eq := by
  obtain ⟨a, as⟩ := o
  rw [compare_eq_iff] at h
  obtain ⟨ha, has⟩ : compare (.number x) a = .eq ∧ List.Forall₂ _ [] as := List.forall₂_cons.1 h
  rw [List.forall₂_nil_left_iff.1 has]
  cases a with
  | absent => cases ha
  | number y => exact ⟨y, rfl, ha⟩

/-- A function of an outcome that has equal values at equal outcomes. -/
def IsCongruent (f : Outcome ρ → Atom ρ) : Prop :=
  ∀ o p, compare o p = .eq → compare (f o) (f p) = .eq

/-- An invariant function after one that respects equality. -/
lemma IsInvariant.comp_isCongruent {α : Type} {g : Outcome ρ → α} (hg : IsInvariant g)
    {f : Outcome ρ → Atom ρ} (hf : IsCongruent f) : IsInvariant fun o => g (single (f o)) :=
  fun o p h => hg _ _ ((compare_single_eq_iff _ _).2 (hf o p h))

/-- An invariant function of a joint outcome is one of its first part. -/
lemma IsInvariant.append_left {α : Type} {g : Outcome ρ → α} (hg : IsInvariant g)
    (p : Outcome ρ) : IsInvariant fun o => g (o ++ p) :=
  fun _ _ h => hg _ _ (compare_append_eq h Std.ReflCmp.compare_self)

/-- An invariant function of a joint outcome is one of its second part. -/
lemma IsInvariant.append_right {α : Type} {g : Outcome ρ → α} (hg : IsInvariant g)
    (o : Outcome ρ) : IsInvariant fun p => g (o ++ p) :=
  fun _ _ h => hg _ _ (compare_append_eq Std.ReflCmp.compare_self h)

/-- The values of a function respect equality if a value at one outcome gives an equal one at all
equal outcomes. -/
lemma isCongruent_valueAt {ε : Type} {f : List (Atom ρ) → Except ε (Atom ρ)}
    (h : ∀ (o p : Outcome ρ) a, compare o p = .eq → f o.atoms = .ok a →
      ∃ b, f p.atoms = .ok b ∧ compare a b = .eq) : IsCongruent (Law.valueAt f) := by
  intro o p hop
  cases ho : f o.atoms with
  | ok a =>
    obtain ⟨b, hp, hab⟩ := h o p a hop ho
    rwa [Law.valueAt_eq ho, Law.valueAt_eq hp]
  | error e =>
    cases hp : f p.atoms with
    | ok b =>
      obtain ⟨a, ha, _⟩ := h p o b (Std.OrientedCmp.eq_symm hop) hp
      rw [ho] at ha
      cases ha
    | error e' =>
      simp only [Law.valueAt, ho, hp]
      rfl

/-- An outcome that equals a pair of numbers is a pair of numbers. -/
lemma exists_of_atoms_eq_pair {o p : Outcome ρ} {x y : Number ρ} (h : compare o p = .eq)
    (ho : o.atoms = [.number x, .number y]) : ∃ x' y', p.atoms = [.number x', .number y'] ∧
      compare x x' = .eq ∧ compare y y' = .eq := by
  rw [compare_eq_iff, ho] at h
  obtain ⟨a, _, ha, hrest, hp⟩ := List.forall₂_cons_left_iff.1 h
  obtain ⟨b, _, hb, hnil, rfl⟩ := List.forall₂_cons_left_iff.1 hrest
  obtain rfl := List.forall₂_nil_left_iff.1 hnil
  cases a with
  | absent => cases ha
  | number x' =>
    cases b with
    | absent => cases hb
    | number y' => exact ⟨x', y', hp, ha, hb⟩

/-- An operator has a value at an outcome if the outcome is a pair of numbers at which it has
one. -/
lemma combine_eq_ok_iff {op : Operator} {as : List (Atom ρ)} {a : Atom ρ} :
    op.combine (μ := μ) as = .ok a ↔
      ∃ x y z, as = [.number x, .number y] ∧ op.value? x y = some z ∧ a = .number z := by
  constructor
  · intro h
    unfold Operator.combine at h
    split at h
    · next x y =>
      obtain ⟨z, hz, rfl⟩ := Except.map_eq_ok_iff.1 h
      exact ⟨x, y, z, rfl, Operator.apply_eq_ok_iff.1 hz, rfl⟩
    · cases h
    · cases h
  · rintro ⟨x, y, z, rfl, hz, rfl⟩
    simp only [Operator.combine, Operator.apply, hz]
    rfl

/-- An operator that has a value at an outcome has an equal one at all equal outcomes. -/
lemma exists_combine_of_compare_eq {op : Operator} (hop : op.IsCongruent ρ) {o p : Outcome ρ}
    (h : compare o p = .eq) {a : Atom ρ} (ha : op.combine (μ := μ) o.atoms = .ok a) :
    ∃ b, op.combine (μ := μ) p.atoms = .ok b ∧ compare a b = .eq := by
  obtain ⟨x, y, z, ho, hz, rfl⟩ := combine_eq_ok_iff.1 ha
  obtain ⟨x', y', hp, hx, hy⟩ := exists_of_atoms_eq_pair h ho
  have hzz := hop x x' y y' hx hy
  rw [hz] at hzz
  generalize hr : op.value? x' y' = r at hzz
  obtain ⟨hzz⟩ := hzz
  exact ⟨_, combine_eq_ok_iff.2 ⟨x', y', _, hp, hr, rfl⟩, hzz⟩

/-- The value of an operator at a pair respects equality if the operator does. -/
theorem isCongruent_combine {op : Operator} (hop : op.IsCongruent ρ) :
    IsCongruent (Law.valueAt (ε := Fault ρ μ) op.combine) :=
  isCongruent_valueAt fun _ _ _ h ha => exists_combine_of_compare_eq hop h ha

/-! ## Maxima -/

/-- The greater of two atoms, up to the form of a number, is determined up to that form. -/
lemma compare_max_congr {a a' b b' : Atom ρ} (ha : compare a a' = .eq) (hb : compare b b' = .eq) :
    compare (Atom.max a b) (Atom.max a' b') = .eq := by
  have hab : compare a b = compare a' b' :=
    (Std.TransCmp.congr_left ha).trans (Std.TransCmp.congr_right hb)
  unfold Atom.max
  rw [hab]
  split
  · exact ha
  · exact hb

/-- The greatest component respects equality. -/
theorem isCongruent_greatest : IsCongruent fun o : Outcome ρ => Atom.greatest o.atoms := by
  intro o p h
  have hfold {as bs : List (Atom ρ)} (h : List.Forall₂ (fun a b => compare a b = .eq) as bs) :
      ∀ a b : Atom ρ, compare a b = .eq →
        compare (as.foldl Atom.max a) (bs.foldl Atom.max b) = .eq := by
    induction h with
    | nil => exact fun a b hab => hab
    | cons hxy _ ih => exact fun a b hab => ih _ _ (compare_max_congr hab hxy)
  exact hfold ((compare_eq_iff o p).1 h) .absent .absent rfl

end Outcome

/-! ## Outcomes that are operands of a roll -/

namespace Dice

open Outcome

omit [Scalar ρ] in
/-- An outcome is a number if it has one component and that is a number. -/
lemma scalar_eq_ok_iff {o : Outcome ρ} {x : Number ρ} :
    scalar (μ := μ) o = .ok x ↔ o = single (.number x) := by
  obtain ⟨a, as⟩ := o
  cases as with
  | cons b bs => exact ⟨nofun, nofun⟩
  | nil =>
    cases a with
    | absent => exact ⟨nofun, nofun⟩
    | number y =>
      exact ⟨fun h => by rw [Except.ok.inj h]; rfl, fun h => by cases h; rfl⟩

/-- The numbers of dice and of sides of a pair of operands. -/
lemma operands_eq_ok_iff {as : List (Atom ρ)} {n m : Nat} :
    operands (μ := μ) as = .ok (n, m) ↔
      ∃ x y, as = [.number x, .number y] ∧ count (μ := μ) x = .ok n ∧ sides (μ := μ) y = .ok m := by
  constructor
  · intro h
    unfold operands at h
    split at h
    · next a b =>
      obtain ⟨x, hx, h⟩ := Except.bind_eq_ok_iff.1 h
      obtain ⟨n, hn, h⟩ := Except.bind_eq_ok_iff.1 h
      obtain ⟨y, hy, h⟩ := Except.bind_eq_ok_iff.1 h
      obtain ⟨m, hm, h⟩ := Except.bind_eq_ok_iff.1 h
      obtain ⟨rfl, rfl⟩ := Prod.mk.inj (Except.pure_eq_ok_iff.1 h)
      cases a with
      | absent => cases hx
      | number x' =>
        cases b with
        | absent => cases hy
        | number y' => exact ⟨x', y', rfl, Except.ok.inj hx ▸ hn, Except.ok.inj hy ▸ hm⟩
    · cases h
  · rintro ⟨x, y, rfl, hn, hm⟩
    simp only [operands, number, bind, Except.bind, hn, hm]
    rfl

/-- Equal outcomes stand for rolls with the same operands. -/
theorem operands_congr {o p : Outcome ρ} (h : compare o p = .eq) {n m : Nat} :
    operands (μ := μ) o.atoms = .ok (n, m) ↔ operands (μ := μ) p.atoms = .ok (n, m) := by
  have himp {o p : Outcome ρ} (h : compare o p = .eq)
      (ho : operands (μ := μ) o.atoms = .ok (n, m)) : operands (μ := μ) p.atoms = .ok (n, m) := by
    obtain ⟨x, y, hxy, hn, hm⟩ := operands_eq_ok_iff.1 ho
    obtain ⟨x', y', hp, hx, hy⟩ := exists_of_atoms_eq_pair h hxy
    exact operands_eq_ok_iff.2 ⟨x', y', hp, (count_congr hx).1 hn, (sides_congr hy).1 hm⟩
  exact ⟨himp h, himp (Std.OrientedCmp.eq_symm h)⟩

end Dice

end DiceCalculus
