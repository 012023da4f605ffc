import DiceCalculus.Proofs.Law.Integral
import DiceCalculus.Proofs.Table.Keys
import DiceCalculus.Proofs.WrittenForm.Laws

set_option autoImplicit false
set_option relaxedAutoImplicit false

/-!
# Joint laws

A joint law puts outcomes together, and an outcome may come about in several ways: it can be cut in two
wherever it has components on both sides. Its mass in the joint law is a sum over all of these cuts, and
outcomes of any number of components may be mixed.

## Main definitions

* `Outcome.splits` — the ways to cut an outcome in two.

## Main results

* `Outcome.mem_splits`, `Outcome.nodup_splits` — the cuts are all ways to put an outcome together, each
  listed once.
* `Law.mass_product`, `Law.total_product` — masses and totals of a joint law.
* `Law.same_product_assoc` — the joint law of three laws.
-/

namespace DiceCalculus

variable {ρ : Type}

/-! ## Cutting an outcome in two -/

namespace Outcome

/-- An outcome has one component, or is one component in front of an outcome. -/
lemma eq_single_or (o : Outcome ρ) : ∃ a, o = single a ∨ ∃ p : Outcome ρ, o = single a ++ p := by
  obtain ⟨a, _ | ⟨b, bs⟩⟩ := o
  · exact ⟨a, .inl rfl⟩
  · exact ⟨a, .inr ⟨⟨b, bs⟩, rfl⟩⟩

/-- What holds of outcomes of one component, and of an outcome with a component in front if it holds of
that outcome, holds of all. -/
lemma induction {P : Outcome ρ → Prop} (hsingle : ∀ a, P (single a))
    (happend : ∀ a o, P o → P (single a ++ o)) (o : Outcome ρ) : P o := by
  obtain ⟨a, as⟩ := o
  induction as generalizing a with
  | nil => exact hsingle a
  | cons b bs ih => exact happend a ⟨b, bs⟩ (ih b)

/-- The ways to cut a first component and the components behind it in two. -/
def splitsFrom (a : Atom ρ) : List (Atom ρ) → List (Outcome ρ × Outcome ρ)
  | [] => []
  | b :: bs => (single a, ⟨b, bs⟩) :: (splitsFrom b bs).map fun p => (single a ++ p.1, p.2)

/-- The ways to cut an outcome in two. -/
def splits (o : Outcome ρ) : List (Outcome ρ × Outcome ρ) := splitsFrom o.head o.tail

/-- An outcome of one component cannot be cut. -/
@[simp] lemma splits_single (a : Atom ρ) : splits (single a) = [] := rfl

/-- An outcome is cut behind its first component, or behind a later one. -/
@[simp] lemma splits_single_append (a : Atom ρ) (o : Outcome ρ) :
    splits (single a ++ o) = (single a, o) :: o.splits.map fun p => (single a ++ p.1, p.2) := rfl

/-- Components in front of two outcomes are equal, and so are the outcomes, if they are put together. -/
lemma single_append_inj {a b : Atom ρ} {o p : Outcome ρ} :
    single a ++ o = single b ++ p ↔ a = b ∧ o = p := by
  obtain ⟨c, cs⟩ := o
  obtain ⟨d, ds⟩ := p
  show mk a (c :: cs) = mk b (d :: ds) ↔ _
  simp

/-- An outcome of one component is not put together. -/
lemma append_ne_single (o p : Outcome ρ) (a : Atom ρ) : o ++ p ≠ single a := fun h => by
  have htail : o.tail ++ p.atoms = [] := congrArg tail h
  cases List.append_ne_nil_of_right_ne_nil _ (List.cons_ne_nil _ _) htail

/-- The joint outcome of three is that of the first and the two others. -/
lemma append_assoc (o p q : Outcome ρ) : o ++ p ++ q = o ++ (p ++ q) :=
  congrArg (mk o.head) (List.append_assoc o.tail p.atoms q.atoms)

/-- The cuts of an outcome are the pairs that it can be put together from. -/
theorem mem_splits {o : Outcome ρ} {p : Outcome ρ × Outcome ρ} : p ∈ o.splits ↔ p.1 ++ p.2 = o := by
  induction o using induction generalizing p with
  | hsingle a =>
    rw [splits_single]
    exact ⟨nofun, fun h => absurd h (append_ne_single _ _ _)⟩
  | happend a o ih =>
    obtain ⟨q, r⟩ := p
    rw [splits_single_append, List.mem_cons, List.mem_map]
    constructor
    · rintro (h | ⟨p, hp, h⟩)
      · cases h
        rfl
      · cases h
        rw [append_assoc, ih.1 hp]
    · obtain ⟨b, rfl | ⟨q, rfl⟩⟩ := q.eq_single_or
      · intro h
        obtain ⟨rfl, rfl⟩ := single_append_inj.1 h
        exact .inl rfl
      · intro h
        obtain ⟨rfl, hparts⟩ := single_append_inj.1 ((append_assoc _ _ _).symm.trans h)
        exact .inr ⟨(q, r), ih.2 hparts, rfl⟩

/-- No cut of an outcome is listed twice. -/
theorem nodup_splits (o : Outcome ρ) : o.splits.Nodup := by
  induction o using induction with
  | hsingle a => exact .nil
  | happend a o ih =>
    rw [splits_single_append, List.nodup_cons, List.mem_map]
    refine ⟨?_, ih.map fun p q h => ?_⟩
    · rintro ⟨p, -, h⟩
      exact append_ne_single _ _ _ (congrArg Prod.fst h)
    · obtain ⟨hfst, hsnd⟩ := Prod.mk.inj h
      exact Prod.ext (single_append_inj.1 hfst).2 hsnd

variable [Scalar ρ]

/-- Outcomes with a component in front are equal if the components and the outcomes are. -/
lemma compare_single_append_eq_iff (a b : Atom ρ) (o p : Outcome ρ) :
    compare (single a ++ o) (single b ++ p) = .eq ↔
      compare (single a) (single b) = .eq ∧ compare o p = .eq := by
  rw [compare_eq_iff, compare_single_eq_iff, compare_eq_iff]
  exact List.forall₂_cons

/-- An outcome of several components differs from one of a single component. -/
lemma compare_single_append_ne (a b : Atom ρ) (o : Outcome ρ) :
    compare (single a ++ o) (single b) ≠ .eq ∧ compare (single b) (single a ++ o) ≠ .eq := by
  have hlength : (single a ++ o).atoms.length = o.tail.length + 2 := rfl
  have hsingle : (single b).atoms.length = 1 := rfl
  constructor
  · intro h
    have := ((compare_eq_iff _ _).1 h).length_eq
    omega
  · intro h
    have := ((compare_eq_iff _ _).1 h).length_eq
    omega

/-- Whether outcomes with a component in front are equal tells of the components and of the outcomes. -/
lemma indicator_single_append (a b : Atom ρ) (o p : Outcome ρ) :
    indicator (single a ++ o) (single b ++ p) = indicator (single a) (single b) * indicator o p := by
  unfold indicator
  refine (if_congr (compare_single_append_eq_iff b a p o) rfl rfl).trans ?_
  rw [ite_and]
  split <;> simp

/-- Whether two outcomes put together are equal to a third tells of the cuts of that one.

**Proof sketch.** By induction on the outcome that is cut. If the first part has one component, it can
equal only the first part of the first cut; and if it has more, only those of the others. -/
lemma indicator_append (o p q : Outcome ρ) : indicator o (p ++ q) =
    (o.splits.map fun s => indicator s.1 p * indicator s.2 q).sum := by
  induction o using induction generalizing p with
  | hsingle a =>
    obtain ⟨b, rfl | ⟨p, rfl⟩⟩ := p.eq_single_or
    · exact indicator_of_ne (compare_single_append_ne b a q).1
    · rw [append_assoc]
      exact indicator_of_ne (compare_single_append_ne b a (p ++ q)).1
  | happend a o ih =>
    rw [splits_single_append, List.map_cons, List.sum_cons, List.map_map]
    obtain ⟨b, rfl | ⟨p, rfl⟩⟩ := p.eq_single_or
    · have hlater : ∀ x ∈ o.splits.map ((fun s => indicator s.1 (single b) * indicator s.2 q) ∘
          fun s => (single a ++ s.1, s.2)), x = 0 := List.forall_mem_map.2 fun s _ => by
        show indicator (single a ++ s.1) (single b) * _ = (0 : ℚ)
        rw [indicator_of_ne (compare_single_append_ne a b s.1).2, zero_mul]
      rw [List.sum_eq_zero hlater, add_zero, indicator_single_append]
    · rw [indicator_of_ne (compare_single_append_ne b a p).1, zero_mul, zero_add, append_assoc,
        indicator_single_append, ih, ← List.sum_map_mul_left]
      refine congrArg List.sum (List.map_congr_left fun s _ => ?_)
      show _ = indicator (single a ++ s.1) (single b ++ p) * indicator s.2 q
      rw [indicator_single_append, mul_assoc]

end Outcome

/-! ## Masses of joint laws -/

namespace Law

open Outcome

variable [Scalar ρ] {l l' : Law ρ ℚ}

/-- The mass of an outcome in a joint law is summed over the ways to cut the outcome in two. -/
theorem mass_product (l l' : Law ρ ℚ) (o : Outcome ρ) :
    (l.product l').mass o = (o.splits.map fun p => l.mass p.1 * l'.mass p.2).sum := by
  rw [mass_eq_integral, integral_product (isInvariant_indicator o)]
  simp only [indicator_append, integral_sum_map, integral_const_mul, integral_mul_const,
    ← mass_eq_integral]

/-- The total of a joint law is the product of the totals. -/
theorem total_product (l l' : Law ρ ℚ) : (l.product l').total = l.total * l'.total := by
  rw [total_eq_integral, integral_product (fun _ _ _ => rfl), ← total_eq_integral l']
  rw [integral_congr (h := fun _ => 1 * l'.total) fun _ _ => (one_mul _).symm, integral_mul_const,
    total_eq_integral l]

/-! ## The joint law of three laws -/

/-- Laws with the same outcomes, and the same masses at these, are the same up to written forms. -/
lemma same_of_mass (houtcomes : ∀ o, (∃ e ∈ l.entries, compare e.1 o = .eq) ↔
    ∃ e ∈ l'.entries, compare e.1 o = .eq) (hmass : ∀ o, l.mass o = l'.mass o) : l.Same l' := by
  refine Table.same_of_find? fun o => ?_
  have hsome : (l.find? o).isSome = true ↔ (l'.find? o).isSome = true := by
    rw [Table.isSome_find?_iff, Table.isSome_find?_iff]
    exact houtcomes o
  have hvalue : (l.find? o).getD 0 = (l'.find? o).getD 0 := hmass o
  cases hfind : l.find? o <;> cases hfind' : l'.find? o <;> simp_all

/-- The outcomes of a joint law are those of the two laws, put together. -/
lemma exists_outcome_product_iff {Q : Outcome ρ → Prop} (hQ : IsInvariant Q) :
    (∃ e ∈ (l.product l').entries, Q e.1) ↔
      ∃ e ∈ l.entries, ∃ e' ∈ l'.entries, Q (e.1 ++ e'.1) := by
  refine (Table.exists_key_ofEntries_iff fun o p h => (hQ o p h).to_iff).trans ?_
  simp only [List.mem_flatMap, List.mem_map]
  constructor
  · rintro ⟨_, ⟨e, he, e', he', rfl⟩, h⟩
    exact ⟨e, he, e', he', h⟩
  · rintro ⟨e, he, e', he', h⟩
    exact ⟨_, ⟨e, he, e', he', rfl⟩, h⟩

/-- It is of no account which two of three laws are put together first, up to written forms. -/
theorem same_product_assoc (l d d' : Law ρ ℚ) :
    ((l.product d).product d').Same (l.product (d.product d')) := by
  refine same_of_mass (fun o => ?_) fun o => ?_
  · have hequal := isInvariant_compare_eq o
    have hfirst : IsInvariant fun p => ∃ e ∈ d'.entries, compare (p ++ e.1) o = .eq := fun p q h =>
      propext (exists_congr fun e => and_congr_right fun _ => (hequal.append_left e.1 p q h).to_iff)
    rw [exists_outcome_product_iff hequal, exists_outcome_product_iff hfirst,
      exists_outcome_product_iff hequal]
    simp only [exists_outcome_product_iff (hequal.append_right _), append_assoc]
  · have hindicator := isInvariant_indicator o
    have hfirst : IsInvariant fun p => d'.integral fun q => indicator o (p ++ q) := fun p q h =>
      integral_congr fun e _ => hindicator.append_left e.1 p q h
    rw [mass_eq_integral, mass_eq_integral, integral_product hindicator, integral_product hindicator,
      integral_product hfirst]
    simp only [integral_product (hindicator.append_right _), append_assoc]

end Law

end DiceCalculus
