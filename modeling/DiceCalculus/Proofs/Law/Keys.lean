import DiceCalculus.Proofs.Law.Numbers
import DiceCalculus.Proofs.Law.Product
import DiceCalculus.Proofs.Table.Entries

set_option autoImplicit false
set_option relaxedAutoImplicit false

/-!
# The outcomes of a law that is computed

A law lists equal outcomes once, in the form that came first. Where equal outcomes are written in
one form anyway, the outcomes that it lists are those of which it is made: pairs of outcomes for a
joint law, and values at outcomes for the law of a function. No mass has a part in this, not even
one that is too small to be told from zero.

## Main results

* `Law.mem_keys_product`, `Law.mem_keys_fold` — the outcomes of a joint law, and of the law of a
  function.
-/

namespace DiceCalculus

variable {ρ μ : Type} [Scalar ρ] [Mass μ]

open Outcome

namespace Law

variable {l l' d : Law ρ μ} {o : Outcome ρ}

/-- A constant is its only outcome. -/
lemma mem_keys_certain {a : Atom ρ} : o ∈ (certain a : Law ρ μ).keys ↔ o = single a := by
  have hforms : ∀ e ∈ [((single a : Outcome ρ), (1 : μ))], ∀ e' ∈ [((single a : Outcome ρ), (1 : μ))],
      compare e.1 e'.1 = .eq → e.1 = e'.1 := by
    simp only [List.mem_singleton, forall_eq, implies_true]
  exact (Table.mem_keys_ofEntries hforms).trans List.mem_singleton

omit [Scalar ρ] [Mass μ] in
/-- The entries of which a joint law is made are for pairs of outcomes. -/
lemma exists_append_of_mem_pairs {weight : μ → μ → μ} {es es' : List (Outcome ρ × μ)}
    (ho : o ∈ (es.flatMap fun e => es'.map fun e' => (e.1 ++ e'.1, weight e.2 e'.2)).map (·.1)) :
    ∃ p ∈ es.map (·.1), ∃ p' ∈ es'.map (·.1), o = p ++ p' := by
  obtain ⟨e, he, rfl⟩ := List.mem_map.1 ho
  obtain ⟨f, hf, he⟩ := List.mem_flatMap.1 he
  obtain ⟨f', hf', rfl⟩ := List.mem_map.1 he
  exact ⟨f.1, List.mem_map_of_mem hf, f'.1, List.mem_map_of_mem hf', rfl⟩

/-- The outcomes of a joint law are pairs of outcomes. -/
lemma exists_append_of_mem_product (ho : o ∈ (l.product l').keys) :
    ∃ p ∈ l.keys, ∃ p' ∈ l'.keys, o = p ++ p' :=
  exists_append_of_mem_pairs (Table.keys_ofEntries_subset _ ho)

/-- The outcomes of a joint law are the pairs of outcomes, if the first ones have one component
each. -/
theorem mem_keys_product {A : Atom ρ → Prop} (hl : l.IsOver A) :
    o ∈ (l.product l').keys ↔ ∃ p ∈ l.keys, ∃ p' ∈ l'.keys, o = p ++ p' := by
  refine ⟨exists_append_of_mem_product, ?_⟩
  rintro ⟨p, hp, p', hp', rfl⟩
  obtain ⟨f, hf, rfl⟩ := List.mem_map.1 hp
  obtain ⟨f', hf', rfl⟩ := List.mem_map.1 hp'
  unfold product
  rw [Table.mem_keys_ofEntries fun e he e' he' h => ?_]
  · exact List.mem_map.2 ⟨_, List.mem_flatMap.2 ⟨f, hf, List.mem_map_of_mem hf'⟩, rfl⟩
  · -- equal pairs have equal parts, and a law lists equal outcomes once
    have hsingle {p : Outcome ρ} (hp : p ∈ l.keys) : ∃ a, p = single a := by
      obtain ⟨f, hf, rfl⟩ := List.mem_map.1 hp
      exact (hl f hf).imp fun _ h => h.2
    obtain ⟨p, ha, p', hp', heq⟩ := exists_append_of_mem_pairs (List.mem_map_of_mem he)
    obtain ⟨q, hb, q', hq', heq'⟩ := exists_append_of_mem_pairs (List.mem_map_of_mem he')
    obtain ⟨a, rfl⟩ := hsingle ha
    obtain ⟨b, rfl⟩ := hsingle hb
    rw [heq, heq', compare_single_append_eq_iff] at h
    rw [heq, heq', Table.eq_of_compare_eq ha hb h.1, Table.eq_of_compare_eq hp' hq' h.2]

/-- The outcomes of the law of a function are its values, if equal values are written in one
form. -/
theorem mem_keys_fold {ε : Type} {f : List (Atom ρ) → Except ε (Atom ρ)} (h : l.fold f = .ok d)
    (hforms : ∀ p ∈ l.keys, ∀ q ∈ l.keys, ∀ a b, f p.atoms = .ok a → f q.atoms = .ok b →
      compare a b = .eq → a = b) :
    o ∈ d.keys ↔ ∃ p ∈ l.keys, ∃ a, f p.atoms = .ok a ∧ o = single a := by
  obtain ⟨hvalues, rfl⟩ := fold_eq_ok_iff_ofEntries.1 h
  rw [Table.mem_keys_ofEntries fun e he e' he' h => ?_]
  · simp only [List.map_map, List.mem_map, Table.keys]
    constructor
    · rintro ⟨e, he, rfl⟩
      obtain ⟨a, ha⟩ := hvalues e he
      exact ⟨_, ⟨e, he, rfl⟩, a, ha, congrArg single (valueAt_eq ha)⟩
    · rintro ⟨p, ⟨e, he, rfl⟩, a, ha, rfl⟩
      exact ⟨e, he, congrArg single (valueAt_eq ha)⟩
  · obtain ⟨f₁, hf₁, rfl⟩ := List.mem_map.1 he
    obtain ⟨f₂, hf₂, rfl⟩ := List.mem_map.1 he'
    obtain ⟨a, ha⟩ := hvalues f₁ hf₁
    obtain ⟨b, hb⟩ := hvalues f₂ hf₂
    simp only [valueAt_eq ha, valueAt_eq hb] at h ⊢
    exact congrArg single (hforms _ (List.mem_map_of_mem hf₁) _ (List.mem_map_of_mem hf₂) a b ha hb
      ((compare_single_eq_iff a b).1 h))

end Law

end DiceCalculus
