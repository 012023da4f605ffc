import DiceCalculus.Proofs.Exact
import DiceCalculus.Proofs.Law.Product

set_option autoImplicit false
set_option relaxedAutoImplicit false

/-!
# The operations on laws

Laws are put together, mapped and mixed by operations that collect entries in a table, and entries may
meet at one outcome: in a mapped law if the function has equal values, and in a joint law if outcomes of
different numbers of components are put together to the same one. The masses that meet are added, so
that no mass is lost and none is counted twice.

## Main results

* `Law.fold_eq_error_iff` — when a law cannot be folded, and with which failure.
* `Law.mass_of_fold`, `Law.total_of_fold` — masses and the total of a folded law.
* `Law.mass_addScaled`, `Law.total_addScaled` — masses and the total of a mixture.
* `operations_account_for_mass` — what the operations do to the mass of every outcome.
-/

namespace DiceCalculus

variable {ρ μ ε : Type} [Scalar ρ]

namespace Law

/-! ## Functions of an outcome -/

/-- Folding a law fails if the function fails at an outcome, with the failure at the first one. -/
theorem fold_eq_error_iff [Mass μ] {f : List (Atom ρ) → Except ε (Atom ρ)} {l : Law ρ μ} {e : ε} :
    l.fold f = .error e ↔ ∃ before o p after, l.entries = before ++ (o, p) :: after ∧
      (∀ x ∈ before, ∃ a, f x.1.atoms = .ok a) ∧ f o.atoms = .error e := by
  have herror (x : Outcome ρ × μ) :
      (do return (Outcome.single (← f x.1.atoms), x.2) : Except ε _) = .error e ↔
        f x.1.atoms = .error e := by
    cases f x.1.atoms <;> simp [bind, Except.bind, pure, Except.pure]
  have hok (x : Outcome ρ × μ) :
      (∃ y, (do return (Outcome.single (← f x.1.atoms), x.2) : Except ε _) = .ok y) ↔
        ∃ a, f x.1.atoms = .ok a := by
    cases f x.1.atoms <;> simp [bind, Except.bind, pure, Except.pure]
  have hcollect (x : Except ε (List (Outcome ρ × μ))) :
      (do return .ofEntries (← x) : Except ε (Law ρ μ)) = .error e ↔ x = .error e := by
    cases x <;> simp [bind, Except.bind, pure, Except.pure]
  unfold fold
  rw [hcollect, Except.mapM_eq_error_iff]
  simp only [herror, hok, Prod.exists]

variable {f : List (Atom ρ) → Except ε (Atom ρ)} {l d : Law ρ ℚ}

/-- An outcome of a folded law has the mass of all outcomes at which the function has that value. -/
theorem mass_of_fold (h : l.fold f = .ok d) (o : Outcome ρ) :
    d.mass o = l.massWhere fun p => (f p.atoms).toOption.any fun a => compare (.single a) o == .eq := by
  obtain ⟨hvalues, rfl⟩ := fold_eq_ok_iff.1 h
  rw [mass_eq_integral, integral_image (Outcome.isInvariant_indicator o), massWhere_eq_integral]
  refine integral_congr fun e he => ?_
  obtain ⟨a, ha⟩ := hvalues e he
  rw [valueAt_eq ha, ha]
  simp [Outcome.indicator, Except.toOption]

/-- Folding a law keeps its total. -/
theorem total_of_fold (h : l.fold f = .ok d) : d.total = l.total := by
  obtain ⟨-, rfl⟩ := fold_eq_ok_iff.1 h
  rw [total_eq_integral, integral_image fun _ _ _ => rfl, total_eq_integral]

/-! ## Mixtures -/

/-- An outcome of a mixture has its mass in the target and its weighted mass in the law. -/
theorem mass_addScaled (target : Law ρ ℚ) (weight : ℚ) (l : Law ρ ℚ) (o : Outcome ρ) :
    (target.addScaled weight l).mass o = target.mass o + weight * l.mass o := by
  simp only [mass_eq_integral, integral_addScaled (Outcome.isInvariant_indicator o)]

/-- The total of a mixture adds the weighted total of the law to that of the target. -/
theorem total_addScaled (target : Law ρ ℚ) (weight : ℚ) (l : Law ρ ℚ) :
    (target.addScaled weight l).total = target.total + weight * l.total := by
  rw [total_eq_integral, integral_addScaled fun _ _ _ => rfl, ← total_eq_integral, ← total_eq_integral]

end Law

/-- What the operations on laws do to masses, read as exact rationals. The laws are any, of outcomes of
any numbers of components.

* In a joint law, the mass of an outcome is the sum over all ways to cut it in two of the product of the
  masses of the parts; the total is the product of the totals.
* Folding a law fails exactly if the function fails at an outcome, with the failure at the first one.
  Otherwise every outcome has the mass of all those at which the function has a value equal to it, and
  the total is kept.
* Adding a weighted law to a target, which may be missing, adds the weighted masses.
* Joint laws are associative, up to written forms, and folding a joint law keeps the product of the
  totals. -/
theorem operations_account_for_mass (l l' l'' : Law ρ ℚ) (target : Option (Law ρ ℚ)) (weight : ℚ)
    (f : List (Atom ρ) → Except ε (Atom ρ)) :
    ((∀ o : Outcome ρ, o.splits.Nodup ∧ (∀ p, p ∈ o.splits ↔ p.1 ++ p.2 = o) ∧
        (l.product l').mass o = (o.splits.map fun p => l.mass p.1 * l'.mass p.2).sum) ∧
      (l.product l').total = l.total * l'.total) ∧
    ((∀ e, l.fold f = .error e ↔ ∃ before o p after, l.entries = before ++ (o, p) :: after ∧
        (∀ x ∈ before, ∃ a, f x.1.atoms = .ok a) ∧ f o.atoms = .error e) ∧
      ((∃ d, l.fold f = .ok d) ↔ ∀ x ∈ l.entries, ∃ a, f x.1.atoms = .ok a) ∧
      ∀ d, l.fold f = .ok d → d.total = l.total ∧ ∀ o, d.mass o =
        l.massWhere fun p => (f p.atoms).toOption.any fun a => compare (.single a) o == .eq) ∧
    ((∀ o, ((target.getD .empty).addScaled weight l).mass o =
        target.elim 0 (·.mass o) + weight * l.mass o) ∧
      ((target.getD .empty).addScaled weight l).total =
        target.elim 0 (·.total) + weight * l.total) ∧
    ((l.product l').product l'').Same (l.product (l'.product l'')) ∧
    ∀ d, (l.product l').fold f = .ok d → d.total = l.total * l'.total := by
  have hvalues : (∃ d, l.fold f = .ok d) ↔ ∀ x ∈ l.entries, ∃ a, f x.1.atoms = .ok a := by
    simp only [Law.fold_eq_ok_iff_ofEntries, exists_and_left, exists_eq, and_true]
  refine ⟨⟨fun o => ⟨o.nodup_splits, fun _ => Outcome.mem_splits, l.mass_product l' o⟩,
    l.total_product l'⟩, ⟨fun e => Law.fold_eq_error_iff, hvalues,
    fun d hd => ⟨Law.total_of_fold hd, Law.mass_of_fold hd⟩⟩, ⟨fun o => ?_, ?_⟩,
    l.same_product_assoc l' l'', fun d hd => ?_⟩
  · rw [Law.mass_addScaled]
    cases target <;> rfl
  · rw [Law.total_addScaled]
    cases target <;> rfl
  · rw [Law.total_of_fold hd, Law.total_product]

/-- Outcomes of one and of two components. Two pairs of them are put together to the same outcome, of
which the first component is a real in one pair; the joint law is folded to the greatest component. -/
theorem operations_account_for_mass_of_mixed_arities :
    let num (i : Int32) : Atom (WithBot ℚ) := .number (.int i)
    let one : Atom (WithBot ℚ) := .number (.real (1 : ℚ))
    let l : Law (WithBot ℚ) ℚ := .ofEntries [(⟨num 1, []⟩, 1 / 2), (⟨one, [num 2]⟩, 1 / 2)]
    let l' : Law (WithBot ℚ) ℚ :=
      .ofEntries [(⟨num 2, [num 3]⟩, 1 / 3), (⟨num 3, []⟩, 1 / 3), (⟨num 4, []⟩, 1 / 3)]
    let f (as : List (Atom (WithBot ℚ))) : Except Unit (Atom (WithBot ℚ)) := .ok (.greatest as)
    (l.product l').mass ⟨num 1, [num 2, num 3]⟩ = 1 / 3 ∧
    ∃ d, (l.product l').fold f = .ok d ∧ d.total = 1 ∧ d.massOf (num 3) = 2 / 3 := by
  intro num one l l' f
  obtain ⟨⟨hmass, -⟩, -, -, -, htotal⟩ := operations_account_for_mass l l' l none 0 f
  obtain ⟨-, ⟨-, hvalues, hfold⟩, -⟩ := operations_account_for_mass (l.product l') l' l none 0 f
  obtain ⟨d, hd⟩ := hvalues.2 fun x _ => ⟨_, rfl⟩
  refine ⟨((hmass _).2.2).trans (by decide +kernel), d, hd, ?_, ?_⟩
  · exact (htotal d hd).trans (by decide +kernel)
  · exact ((hfold d hd).2 _).trans (by decide +kernel)

end DiceCalculus
