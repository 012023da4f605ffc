import DiceCalculus.Proofs.Law.Integral
import DiceCalculus.Proofs.Table.Entries

set_option autoImplicit false
set_option relaxedAutoImplicit false

/-!
# How a law is written

A law lists each outcome once, in the form in which it came first, and has added up its masses in the
order in which they came. This is so whatever the masses are and however they are added and multiplied,
so that also the last bit of a mass in doubles is determined.

## Main results

* `Law.product_eq_foldl`, `Law.fold_eq_foldlM`, `Law.addScaled_eq_foldl` — the operations on laws add
  one entry after the other.
* `laws_are_built_entry_by_entry` — what such a law says of every outcome, and that it says nothing else.
-/

namespace DiceCalculus

variable {ρ μ ε : Type} [Scalar ρ]

/-- To take the results of a step for every item in afterwards, they may be taken in as they come. -/
lemma Except.foldlM_eq_mapM {α β γ : Type} (f : α → Except ε β) (step : γ → β → γ) (as : List α)
    (c : γ) : (do return (← as.mapM f).foldl step c : Except ε γ) =
      as.foldlM (fun c a => do return step c (← f a)) c := by
  induction as generalizing c with
  | nil => rfl
  | cons a as ih =>
    rw [List.mapM_cons, List.foldlM_cons]
    simp only [bind_assoc, pure_bind, List.foldl_cons, ih]

namespace Law

variable [Mass μ]

/-- A joint law takes in the pairs of outcomes one after the other, the first law outermost. -/
theorem product_eq_foldl (l l' : Law ρ μ) : l.product l' =
    l.entries.foldl (fun d e =>
      l'.entries.foldl (fun d e' => d.addEntry (e.1 ++ e'.1, e.2 * e'.2)) d) .empty := by
  unfold product Table.ofEntries
  rw [Table.addAll_eq_foldl, List.foldl_flatMap]
  simp only [List.foldl_map]

/-- The law of a function takes in the values one after the other, up to the first failure. -/
theorem fold_eq_foldlM (f : List (Atom ρ) → Except ε (Atom ρ)) (l : Law ρ μ) : l.fold f =
    l.entries.foldlM (fun d e => do return d.addEntry (.single (← f e.1.atoms), e.2)) .empty := by
  have hfold := Except.foldlM_eq_mapM (fun e : Outcome ρ × μ => do
    return (Outcome.single (← f e.1.atoms), e.2)) Table.addEntry l.entries .empty
  unfold fold Table.ofEntries
  simp only [Table.addAll_eq_foldl]
  refine hfold.trans ?_
  simp only [bind_assoc, pure_bind]

/-- A target takes in the outcomes of a law that is added to it one after the other. -/
theorem addScaled_eq_foldl (target : Law ρ μ) (weight : μ) (l : Law ρ μ) :
    target.addScaled weight l = l.entries.foldl (fun d e => d.addEntry (e.1, e.2 * weight)) target := by
  unfold addScaled
  rw [Table.addAll_eq_foldl, List.foldl_map]

end Law

/-- What the entries of a law are, with masses and an arithmetic of any kind.

* A law of a list of entries is one that has taken them in (`Table.TakesIn`): its outcomes ascend
  strictly; they are those of the entries, each in the form in which it came first; and the masses of an
  outcome are added from the left, from zero, in the order of the entries. There is only one such law.
* A joint law is the law of all pairs of outcomes, the first law outermost. The law of a function is
  that of its values in the order of the outcomes, if there is a value at each. Both take in their
  entries one after the other.
* A law that is added to a target is taken in by it, entry by entry, by the same rule: the target keeps
  its forms, and adds to the masses that it has. -/
theorem laws_are_built_entry_by_entry [Mass μ] :
    (∀ (es : List (Outcome ρ × μ)) (d : Law ρ μ),
      Table.empty.TakesIn es d ↔ d = .ofEntries es) ∧
    (∀ l l' : Law ρ μ,
      l.product l' = .ofEntries
        (l.entries.flatMap fun e => l'.entries.map fun e' => (e.1 ++ e'.1, e.2 * e'.2)) ∧
      l.product l' = l.entries.foldl (fun d e =>
        l'.entries.foldl (fun d e' => d.addEntry (e.1 ++ e'.1, e.2 * e'.2)) d) .empty) ∧
    (∀ (f : List (Atom ρ) → Except ε (Atom ρ)) (l : Law ρ μ),
      (∀ d, l.fold f = .ok d ↔ (∀ e ∈ l.entries, ∃ a, f e.1.atoms = .ok a) ∧
        d = .ofEntries (l.entries.map fun e => (.single (Law.valueAt f e.1), e.2))) ∧
      l.fold f = l.entries.foldlM
        (fun d e => do return d.addEntry (.single (← f e.1.atoms), e.2)) .empty) ∧
    ∀ (target : Law ρ μ) (weight : μ) (l d : Law ρ μ),
      (target.TakesIn (l.entries.map fun e => (e.1, e.2 * weight)) d ↔
        d = target.addScaled weight l) ∧
      target.addScaled weight l =
        l.entries.foldl (fun d e => d.addEntry (e.1, e.2 * weight)) target := by
  have htakes (t : Law ρ μ) (es : List (Outcome ρ × μ)) (d : Law ρ μ) :
      t.TakesIn es d ↔ d = t.addAll es := by
    constructor
    · exact fun h => h.unique (Table.takesIn_addAll t es)
    · rintro rfl
      exact Table.takesIn_addAll t es
  refine ⟨htakes .empty, fun l l' => ⟨rfl, l.product_eq_foldl l'⟩,
    fun f l => ⟨fun d => Law.fold_eq_ok_iff_ofEntries, l.fold_eq_foldlM f⟩,
    fun target weight l d => ⟨htakes target _ d, target.addScaled_eq_foldl weight l⟩⟩

end DiceCalculus
