import Mathlib.Algebra.BigOperators.Ring.List
import Mathlib.Algebra.Order.BigOperators.Group.List
import Mathlib.Algebra.Order.Ring.Rat
import Mathlib.Tactic.Linarith
import Mathlib.Tactic.Positivity
import Mathlib.Tactic.Ring
import DiceCalculus.Law.Basic
import DiceCalculus.Proofs.Results
import DiceCalculus.Proofs.Table.Sums

set_option autoImplicit false
set_option relaxedAutoImplicit false

/-!
# Integrals over a law

Read with rational masses, a law is an expected value: it sends a function of an outcome to the sum
of its values weighted by the masses. The operations on laws have simple integrals, and the mass of
an outcome is itself one, so what an operation does to the masses follows from its integral.

## Main definitions

* The rationals as masses.
* `Outcome.IsInvariant` — functions of an outcome that do not depend on how numbers are written.
* `Outcome.indicator` — one at an outcome and zero elsewhere.
* `Law.integral` — the integral of a function over a law.
* `Law.IsNormalized` — masses that are not negative and sum up to one.
* `Law.Each` — a predicate on all entries of a law.
* `Law.massWhere` — the mass of the outcomes with a property.

## Main results

* `Law.mass_eq_integral`, `Law.total_eq_integral` — masses and totals are integrals.
* `Law.integral_product`, `Law.integral_image`, `Law.integral_addScaled`, `Law.integral_uniform` —
  the integrals of the operations.
* `Law.fold_eq_ok_iff` — when a law can be folded, and what it is folded to.
* `Law.integral_comm` — two integrals may be exchanged.
-/

namespace DiceCalculus

/-! ## Rational masses -/

/-- Rationals are the masses of a statement about probabilities. -/
instance : Mass ℚ where
  neutral := 0
  share sides := 1 / sides
  isPositive x := decide (0 < x)
  isWithin tolerance x y := decide (|x - y| ≤ tolerance)

namespace Mass

/-- A rational mass is positive if it is above zero. -/
@[simp] lemma isPositive_iff (x : ℚ) : isPositive x = true ↔ 0 < x := by
  show decide (0 < x) = true ↔ _
  rw [decide_eq_true_iff]

/-- Two rational masses are within a tolerance if they do not lie further apart. -/
@[simp] lemma isWithin_iff (tolerance x y : ℚ) :
    isWithin tolerance x y = true ↔ |x - y| ≤ tolerance := by
  show decide (|x - y| ≤ tolerance) = true ↔ _
  rw [decide_eq_true_iff]

end Mass

variable {ρ : Type} [Scalar ρ]

/-! ## Functions of an outcome -/

namespace Outcome

/-- Lists compare equal exactly if they have equal items at equal places. -/
lemma compareLex_eq_iff (as bs : List (Atom ρ)) :
    compare as bs = .eq ↔ List.Forall₂ (fun a b => compare a b = .eq) as bs := by
  show List.compareLex compare as bs = .eq ↔ _
  induction as generalizing bs with
  | nil => cases bs <;> simp [List.compareLex]
  | cons a as ih =>
    cases bs with
    | nil => simp [List.compareLex]
    | cons b bs => rw [List.compareLex_cons_cons, Ordering.then_eq_eq, ih, List.forall₂_cons]

/-- Outcomes are equal exactly if their components are. -/
lemma compare_eq_iff (o p : Outcome ρ) :
    compare o p = .eq ↔ List.Forall₂ (fun a b => compare a b = .eq) o.atoms p.atoms :=
  compareLex_eq_iff o.atoms p.atoms

/-- Outcomes with one component compare as the components do. -/
lemma compare_single (a b : Atom ρ) : compare (single a) (single b) = compare a b := by
  show List.compareLex compare [a] [b] = _
  rw [List.compareLex_cons_cons, List.compareLex_nil_nil, Ordering.then_eq]

/-- Outcomes with one component are equal exactly if the components are. -/
lemma compare_single_eq_iff (a b : Atom ρ) :
    compare (single a) (single b) = .eq ↔ compare a b = .eq := by
  rw [compare_single]

/-- Equal outcomes put together are equal. -/
lemma compare_append_eq {o o' p p' : Outcome ρ} (ho : compare o o' = .eq)
    (hp : compare p p' = .eq) : compare (o ++ p) (o' ++ p') = .eq := by
  rw [compare_eq_iff] at ho hp ⊢
  exact List.rel_append ho hp

/-- A function of an outcome that does not depend on how its numbers are written. -/
def IsInvariant {α : Type} (g : Outcome ρ → α) : Prop := ∀ o p, compare o p = .eq → g o = g p

/-- One at an outcome and zero elsewhere. -/
def indicator (o p : Outcome ρ) : ℚ := if compare p o = .eq then 1 else 0

/-- Comparing equal outcomes with a third has the same answer. -/
lemma compare_congr_left {o p q : Outcome ρ} (h : compare o p = .eq) :
    compare o q = compare p q :=
  Std.TransCmp.congr_left h

/-- Whether an outcome equals another does not depend on how it is written. -/
lemma isInvariant_compare_eq (q : Outcome ρ) : IsInvariant fun o => compare o q = .eq :=
  fun _ _ h => congrArg (· = Ordering.eq) (compare_congr_left h)

/-- An indicator does not depend on how numbers are written. -/
lemma isInvariant_indicator (o : Outcome ρ) : IsInvariant (indicator o) := fun p q h => by
  unfold indicator
  rw [compare_congr_left h]

/-- An indicator is not negative. -/
lemma indicator_nonneg (o p : Outcome ρ) : 0 ≤ indicator o p := by
  unfold indicator
  split <;> norm_num

/-- An indicator is one at outcomes equal to its own. -/
lemma indicator_of_eq {o p : Outcome ρ} (h : compare p o = .eq) : indicator o p = 1 := if_pos h

/-- An indicator is zero at outcomes other than its own. -/
lemma indicator_of_ne {o p : Outcome ρ} (h : compare p o ≠ .eq) : indicator o p = 0 := if_neg h

open Classical in
/-- An invariant property is told by a function that is zero exactly where the property holds. -/
lemma exists_miss {P : Outcome ρ → Prop} (hP : IsInvariant P) : ∃ miss : Outcome ρ → ℚ,
    IsInvariant miss ∧ (∀ o, 0 ≤ miss o) ∧ ∀ o, miss o = 0 ↔ P o := by
  refine ⟨fun o => if P o then 0 else 1, fun o o' ho => ?_, fun o => ?_, fun o => ?_⟩
  · exact if_congr (hP o o' ho).to_iff rfl rfl
  · show (0 : ℚ) ≤ if P o then 0 else 1
    split <;> norm_num
  · by_cases ho : P o <;> simp [ho]

/-- Invariant functions of parts combine to an invariant function. -/
lemma IsInvariant.comp {α β : Type} {g : Outcome ρ → α} (hg : IsInvariant g) (f : α → β) :
    IsInvariant fun o => f (g o) := fun o p h => congrArg f (hg o p h)

end Outcome

open Outcome

namespace Law

/-! ## The integral -/

/-- The integral of a function of an outcome over a law. -/
def integral (l : Law ρ ℚ) (g : Outcome ρ → ℚ) : ℚ := (l.entries.map fun e => e.2 * g e.1).sum

/-- A predicate holds of every entry of a law. -/
def Each (P : Outcome ρ → ℚ → Prop) (l : Law ρ ℚ) : Prop := ∀ e ∈ l.entries, P e.1 e.2

/-- The masses of a law are not negative and sum up to one. -/
structure IsNormalized (l : Law ρ ℚ) : Prop where
  /-- No mass is negative. -/
  nonneg : l.Each fun _ p => 0 ≤ p
  /-- The masses sum up to one. -/
  total : l.integral (fun _ => 1) = 1

variable {l l' : Law ρ ℚ} {g h : Outcome ρ → ℚ}

/-- A property of an outcome and of every outcome of a law is invariant if it is for each. -/
lemma isInvariant_each {Q : Outcome ρ → Outcome ρ → Prop}
    (hQ : ∀ o', IsInvariant fun o => Q o o') : IsInvariant fun o => l.Each fun o' _ => Q o o' :=
  fun o p h => propext (forall₂_congr fun e _ => (hQ e.1 o p h).to_iff)

/-- Functions that agree on the outcomes of a law have the same integral. -/
lemma integral_congr (hgh : ∀ e ∈ l.entries, g e.1 = h e.1) : l.integral g = l.integral h := by
  unfold integral
  exact congrArg List.sum (List.map_congr_left fun e he => by rw [hgh e he])

/-- The integral of a sum. -/
lemma integral_add (l : Law ρ ℚ) (g h : Outcome ρ → ℚ) :
    l.integral (fun o => g o + h o) = l.integral g + l.integral h := by
  unfold integral
  rw [← List.sum_map_add]
  exact congrArg List.sum (List.map_congr_left fun e _ => mul_add _ _ _)

/-- A constant factor moves out of an integral. -/
lemma integral_const_mul (l : Law ρ ℚ) (c : ℚ) (g : Outcome ρ → ℚ) :
    l.integral (fun o => c * g o) = c * l.integral g := by
  unfold integral
  rw [← List.sum_map_mul_left]
  exact congrArg List.sum (List.map_congr_left fun e _ => mul_left_comm _ _ _)

/-- A constant factor moves out of an integral to the right. -/
lemma integral_mul_const (l : Law ρ ℚ) (g : Outcome ρ → ℚ) (c : ℚ) :
    l.integral (fun o => g o * c) = l.integral g * c := by
  simp only [mul_comm _ c, integral_const_mul]

/-- The integral of zero. -/
lemma integral_zero (l : Law ρ ℚ) : l.integral (fun _ => 0) = 0 := by
  simpa using l.integral_const_mul 0 fun _ => 1

/-- The integral of a sum over a list. -/
lemma integral_sum_map {ι : Type} (l : Law ρ ℚ) (is : List ι) (f : ι → Outcome ρ → ℚ) :
    l.integral (fun o => (is.map fun i => f i o).sum) = (is.map fun i => l.integral (f i)).sum := by
  induction is with
  | nil => exact l.integral_zero
  | cons i is ih => simp only [List.map_cons, List.sum_cons, integral_add, ih]

/-- The integral of a difference. -/
lemma integral_sub (l : Law ρ ℚ) (g h : Outcome ρ → ℚ) :
    l.integral (fun o => g o - h o) = l.integral g - l.integral h := by
  have h' := integral_add l g fun o => -1 * h o
  rw [integral_const_mul] at h'
  simp only [sub_eq_add_neg, neg_eq_neg_one_mul (h _), neg_eq_neg_one_mul (l.integral h)]
  exact h'

/-- The integral of a constant over a law with total one. -/
lemma IsNormalized.integral_const (hl : l.IsNormalized) (c : ℚ) :
    l.integral (fun _ => c) = c := by
  simpa [hl.total] using integral_const_mul l c fun _ => 1

/-- The integral of a function that is not negative. -/
lemma integral_nonneg (hl : l.Each fun _ p => 0 ≤ p) (hg : ∀ e ∈ l.entries, 0 ≤ g e.1) :
    0 ≤ l.integral g := by
  unfold integral
  refine List.sum_nonneg fun x hx => ?_
  obtain ⟨e, he, rfl⟩ := List.mem_map.1 hx
  exact mul_nonneg (hl e he) (hg e he)

/-- A greater function has a greater integral. -/
lemma integral_mono (hl : l.Each fun _ p => 0 ≤ p) (hgh : ∀ e ∈ l.entries, g e.1 ≤ h e.1) :
    l.integral g ≤ l.integral h := by
  have hdiff : 0 ≤ l.integral fun o => h o - g o :=
    integral_nonneg hl fun e he => sub_nonneg.2 (hgh e he)
  rw [integral_sub] at hdiff
  exact sub_nonneg.1 hdiff

/-- Two integrals may be exchanged. -/
theorem integral_comm (l l' : Law ρ ℚ) (f : Outcome ρ → Outcome ρ → ℚ) :
    l.integral (fun o => l'.integral fun o' => f o o') =
      l'.integral fun o' => l.integral fun o => f o o' := by
  unfold integral
  induction l.entries with
  | nil => simp
  | cons e es ih =>
    simp only [List.map_cons, List.sum_cons, ih, mul_add, List.sum_map_add]
    rw [← List.sum_map_mul_left]
    exact congrArg (· + _) (congrArg List.sum (List.map_congr_left fun e' _ => mul_left_comm _ _ _))

/-! ## Masses as integrals -/

/-- The mass of an outcome is the integral of its indicator. -/
theorem mass_eq_integral (l : Law ρ ℚ) (o : Outcome ρ) : l.mass o = l.integral (indicator o) := by
  refine (Table.sum_ite_compare_eq l o).symm.trans ?_
  exact congrArg List.sum (List.map_congr_left fun e _ => by unfold indicator; split <;> simp)

/-- The mass of the outcomes with a property. -/
def massWhere (P : Outcome ρ → Bool) (l : Law ρ ℚ) : ℚ :=
  ((l.entries.filter fun e => P e.1).map (·.2)).sum

/-- The mass of the outcomes with a property is the integral of that property. -/
lemma massWhere_eq_integral (P : Outcome ρ → Bool) (l : Law ρ ℚ) :
    l.massWhere P = l.integral fun o => if P o then 1 else 0 := by
  unfold massWhere integral
  induction l.entries with
  | nil => rfl
  | cons e es ih =>
    rw [List.map_cons, List.sum_cons, ← ih, List.filter_cons]
    by_cases h : P e.1 <;> simp [h]

/-- Properties that agree on the outcomes of a law have the same mass. -/
lemma massWhere_congr {P Q : Outcome ρ → Bool} (h : ∀ e ∈ l.entries, P e.1 = Q e.1) :
    l.massWhere P = l.massWhere Q :=
  congrArg (fun es => (es.map (·.2)).sum) (List.filter_congr h)

/-- The mass of an outcome is that of all outcomes that compare equal with it. -/
lemma mass_eq_massWhere (l : Law ρ ℚ) (o : Outcome ρ) :
    l.mass o = l.massWhere fun p => compare p o == .eq := by
  rw [mass_eq_integral, massWhere_eq_integral]
  refine integral_congr fun e _ => ?_
  unfold indicator
  simp only [beq_iff_eq]

/-- The mass of all outcomes is the integral of one. -/
theorem total_eq_integral (l : Law ρ ℚ) : l.total = l.integral fun _ => 1 := by
  unfold total integral Table.values
  refine (Table.foldl_add_eq (0 : ℚ) _).trans ?_
  rw [zero_add]
  exact congrArg List.sum (List.map_congr_left fun e _ => (mul_one _).symm)

/-- The masses of a law that has none below zero are not negative. -/
lemma mass_nonneg (hl : l.Each fun _ p => 0 ≤ p) (o : Outcome ρ) : 0 ≤ l.mass o := by
  rw [mass_eq_integral]
  exact integral_nonneg hl fun e _ => indicator_nonneg o e.1

/-- The masses of numbers are not negative in a law that has none below zero. -/
lemma massOf_nonneg (hl : l.Each fun _ p => 0 ≤ p) (a : Atom ρ) : 0 ≤ l.massOf a :=
  mass_nonneg hl _

/-- An invariant function that is positive at an outcome with a mass has a positive integral. -/
lemma integral_pos (hl : l.Each fun _ p => 0 ≤ p) (hinv : IsInvariant g) (hg : ∀ o, 0 ≤ g o)
    {o : Outcome ρ} (hmass : 0 < l.mass o) (ho : 0 < g o) : 0 < l.integral g := by
  have hle : g o * l.mass o ≤ l.integral g := by
    rw [mass_eq_integral, ← integral_const_mul]
    refine integral_mono hl fun e _ => ?_
    by_cases h : compare e.1 o = .eq
    · rw [indicator_of_eq h, mul_one, hinv e.1 o h]
    · rw [indicator_of_ne h, mul_zero]
      exact hg e.1
  exact lt_of_lt_of_le (mul_pos ho hmass) hle

/-! ## The operations -/

/-- A list of entries as a law: what holds of the entries and passes on to sums holds of the law. -/
lemma each_ofEntries {P : Outcome ρ → ℚ → Prop} (hP : Table.IsKeyPredicate P)
    (hadd : ∀ o p q, P o p → P o q → P o (p + q)) {es : List (Outcome ρ × ℚ)}
    (hes : ∀ e ∈ es, P e.1 e.2) : Law.Each P (Table.ofEntries es) :=
  Table.forall_mem_addAll hP hadd (by simp [Table.empty]) hes

/-- The integral over a list of entries that are added into a law. -/
lemma integral_addAll (hg : IsInvariant g) (l : Law ρ ℚ) (es : List (Outcome ρ × ℚ)) :
    integral (l.addAll es) g = l.integral g + (es.map fun e => e.2 * g e.1).sum :=
  Table.sum_map_addAll (fun o => AddMonoidHom.mulRight (g o))
    (fun o p h => congrArg AddMonoidHom.mulRight (hg o p h)) l es

/-- The integral over a list of entries as a law. -/
lemma integral_ofEntries (hg : IsInvariant g) (es : List (Outcome ρ × ℚ)) :
    integral (Table.ofEntries es) g = (es.map fun e => e.2 * g e.1).sum :=
  (integral_addAll hg _ es).trans (zero_add _)

/-- The integral over the law without outcomes. -/
@[simp] lemma integral_empty (g : Outcome ρ → ℚ) : integral (Table.empty : Law ρ ℚ) g = 0 := rfl

/-- The law of a constant has one entry. -/
lemma entries_certain (a : Atom ρ) : (certain a : Law ρ ℚ).entries = [(.single a, 1)] := by
  refine (Table.entries_ofEntries_singleton (single a) (1 : ℚ)).trans ?_
  rw [zero_add]

/-- The integral over the law of a constant is the value there. -/
lemma integral_certain (a : Atom ρ) (g : Outcome ρ → ℚ) :
    (certain a : Law ρ ℚ).integral g = g (.single a) := by
  unfold integral
  rw [entries_certain]
  simp

/-- The integral over a fair die is the average over its faces. -/
theorem integral_uniform (hg : IsInvariant g) (sides : Nat) :
    (uniform sides : Law ρ ℚ).integral g =
      1 / sides * ((List.range sides).map fun i => g (.face (.ofNat (i + 1)))).sum := by
  refine (integral_ofEntries hg _).trans ?_
  rw [List.map_map, ← List.sum_map_mul_left]
  rfl

/-- The integral over a joint law is an integral over both. -/
theorem integral_product (hg : IsInvariant g) (l l' : Law ρ ℚ) :
    (l.product l').integral g = l.integral fun o => l'.integral fun o' => g (o ++ o') := by
  refine (integral_ofEntries hg _).trans ?_
  unfold integral
  induction l.entries with
  | nil => rfl
  | cons e es ih =>
    rw [List.flatMap_cons, List.map_append, List.sum_append, ih, List.map_cons, List.sum_cons,
      List.map_map, ← List.sum_map_mul_left]
    exact congrArg (· + _) (congrArg List.sum (List.map_congr_left fun e' _ => mul_assoc _ _ _))

/-- What holds of pairs of entries of two laws, and passes on to sums, holds of their joint law. -/
lemma each_product {P : Outcome ρ → ℚ → Prop} (hP : Table.IsKeyPredicate P)
    (hadd : ∀ o p q, P o p → P o q → P o (p + q))
    (hpair : ∀ e ∈ l.entries, ∀ e' ∈ l'.entries, P (e.1 ++ e'.1) (e.2 * e'.2)) :
    (l.product l').Each P := by
  refine each_ofEntries hP hadd fun e he => ?_
  obtain ⟨a, ha, he⟩ := List.mem_flatMap.1 he
  obtain ⟨b, hb, rfl⟩ := List.mem_map.1 he
  exact hpair a ha b hb

/-- The law of a function that has a value at every outcome. -/
def image (l : Law ρ ℚ) (f : Outcome ρ → Atom ρ) : Law ρ ℚ :=
  .ofEntries (l.entries.map fun e => (.single (f e.1), e.2))

/-- The value of a function of the components of an outcome, and the mark of a die that was not
rolled where there is none. -/
def valueAt {ε : Type} (f : List (Atom ρ) → Except ε (Atom ρ)) (o : Outcome ρ) : Atom ρ :=
  (f o.atoms).toOption.getD .absent

omit [Scalar ρ] in
/-- The value of a function where there is one. -/
lemma valueAt_eq {ε : Type} {f : List (Atom ρ) → Except ε (Atom ρ)} {o : Outcome ρ} {a : Atom ρ}
    (h : f o.atoms = .ok a) : valueAt f o = a :=
  Except.getD_toOption h _

/-- Folding a law with any masses succeeds if the function has a value at every outcome, and makes
entries of these values in the order of the outcomes. -/
lemma fold_eq_ok_iff_ofEntries {μ ε : Type} [Mass μ] {f : List (Atom ρ) → Except ε (Atom ρ)}
    {l d : Law ρ μ} : l.fold f = .ok d ↔ (∀ e ∈ l.entries, ∃ a, f e.1.atoms = .ok a) ∧
      d = .ofEntries (l.entries.map fun e => (.single (valueAt f e.1), e.2)) := by
  have hmap (hf : ∀ e ∈ l.entries, ∃ a, f e.1.atoms = .ok a) :
      l.fold f = .ok (.ofEntries (l.entries.map fun e => (.single (valueAt f e.1), e.2))) := by
    refine Except.bind_eq_ok_iff.2 ⟨_, Except.mapM_eq_ok_map fun e he => ?_, rfl⟩
    obtain ⟨a, ha⟩ := hf e he
    rw [valueAt_eq ha, ha]
    rfl
  constructor
  · intro h
    have hf : ∀ e ∈ l.entries, ∃ a, f e.1.atoms = .ok a := fun e he => by
      obtain ⟨es, hes, _⟩ := Except.bind_eq_ok_iff.1 h
      obtain ⟨_, _, hb⟩ := Except.exists_of_mapM_eq_ok hes e he
      obtain ⟨a, ha, _⟩ := Except.bind_eq_ok_iff.1 hb
      exact ⟨a, ha⟩
    exact ⟨hf, Except.ok.inj (h.symm.trans (hmap hf))⟩
  · rintro ⟨hf, rfl⟩
    exact hmap hf

/-- Folding a law succeeds if the function has a value at every outcome, and gives the law of
these values. -/
theorem fold_eq_ok_iff {ε : Type} {f : List (Atom ρ) → Except ε (Atom ρ)} {l d : Law ρ ℚ} :
    l.fold f = .ok d ↔ (l.Each fun o _ => ∃ a, f o.atoms = .ok a) ∧ d = l.image (valueAt f) :=
  fold_eq_ok_iff_ofEntries

/-- The integral over the law of a function is the integral of the composition. -/
theorem integral_image (hg : IsInvariant g) (l : Law ρ ℚ) (f : Outcome ρ → Atom ρ) :
    (l.image f).integral g = l.integral fun o => g (single (f o)) := by
  refine (integral_ofEntries hg _).trans ?_
  rw [List.map_map]
  rfl

/-- What holds of the values of a function, and passes on to sums, holds of its law. -/
lemma each_image {P : Outcome ρ → ℚ → Prop} (hP : Table.IsKeyPredicate P)
    (hadd : ∀ o p q, P o p → P o q → P o (p + q)) {f : Outcome ρ → Atom ρ}
    (hl : l.Each fun o p => P (single (f o)) p) : (l.image f).Each P := by
  refine each_ofEntries hP hadd fun e he => ?_
  obtain ⟨a, ha, rfl⟩ := List.mem_map.1 he
  exact hl a ha

/-- The integral over a law with another added to it, weighted by a mass. -/
theorem integral_addScaled (hg : IsInvariant g) (target : Law ρ ℚ) (weight : ℚ) (l : Law ρ ℚ) :
    (target.addScaled weight l).integral g = target.integral g + weight * l.integral g := by
  refine (integral_addAll hg target _).trans ?_
  unfold integral
  rw [List.map_map, ← List.sum_map_mul_left]
  exact congrArg (_ + ·) (congrArg List.sum (List.map_congr_left fun e _ =>
    (mul_assoc e.2 weight _).trans (mul_left_comm _ _ _)))

/-- What holds of a law and of another one weighted, and passes on to sums, holds of the sum. -/
lemma each_addScaled {P : Outcome ρ → ℚ → Prop} (hP : Table.IsKeyPredicate P)
    (hadd : ∀ o p q, P o p → P o q → P o (p + q)) {target : Law ρ ℚ} {weight : ℚ}
    (htarget : target.Each P) (hl : l.Each fun o p => P o (p * weight)) :
    (target.addScaled weight l).Each P := by
  refine Table.forall_mem_addAll hP hadd htarget fun e he => ?_
  obtain ⟨a, ha, rfl⟩ := List.mem_map.1 he
  exact hl a ha

end Law

end DiceCalculus
