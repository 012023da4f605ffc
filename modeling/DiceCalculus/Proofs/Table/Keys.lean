import DiceCalculus.Proofs.Table.Sums
import Mathlib.Algebra.Order.BigOperators.Group.List
import Mathlib.Algebra.Order.Group.Nat
import Mathlib.Data.List.Perm.Subperm

set_option autoImplicit false
set_option relaxedAutoImplicit false

/-!
# The keys of a table that is built

Collecting entries by key makes no key up and loses none: each key of the table is a key of an entry, in
the form in which it is written there. A table therefore has no more keys than there are entries.

## Main results

* `Table.forall_key_addAll`, `Table.forall_key_ofEntries` — what holds of the keys of all entries holds
  of the keys of the table.
* `Table.exists_key_ofEntries_iff`, `Table.mem_keys_ofEntries` — no key is lost.
* `Table.keys_eq_of_mem_iff` — the keys of a table, as a list.
* `Table.size_addAll_le`, `Table.size_ofEntries_le` — the number of keys.
-/

namespace DiceCalculus

namespace Table

variable {κ α β γ : Type} [Ord κ] {Q : κ → Prop}

/-- What holds of the keys of two lists of entries holds of those of the entries side by side. -/
lemma forall_key_aligned (both : α → β → γ) (left : α → γ) (right : β → γ) {as : List (κ × α)}
    {bs : List (κ × β)} (has : ∀ e ∈ as, Q e.1) (hbs : ∀ e ∈ bs, Q e.1) :
    ∀ e ∈ aligned both left right as bs, Q e.1 :=
  forall_mem_aligned (Q := fun e => Q e.1) both left right has hbs fun a ha _ _ _ => has a ha

variable [Std.TransOrd κ]

/-- What holds of the keys of all entries holds of those of their collection. -/
lemma forall_key_gather {es : List (κ × α)} (hes : ∀ e ∈ es, Q e.1) :
    ∀ e ∈ (gather es).entries, Q e.1 := by
  refine gather_induction (R := fun t es => (∀ e ∈ es, Q e.1) → ∀ e ∈ t.entries, Q e.1)
    (fun _ _ => nofun) (fun k a hk => by simpa [single] using hk)
    (fun s t es ds hs ht hall => ?_) es hes
  rw [List.forall_mem_append] at hall
  unfold join
  rw [entries_align]
  exact forall_key_aligned _ _ _ (hs hall.1) (ht hall.2)

/-- Collecting entries by key loses no key. -/
lemma exists_key_gather (hQ : ∀ k l, compare k l = .eq → (Q k ↔ Q l)) {es : List (κ × α)}
    {e : κ × α} (he : e ∈ es) (hQe : Q e.1) : ∃ e' ∈ (gather es).entries, Q e'.1 := by
  classical
  -- the entries with such a key are counted before they are collected and after
  let F (k : κ) (_ : α) : ℕ := if Q k then 1 else 0
  have hF : IsKeyFunction F := fun k l _ h => if_congr (hQ k l h) rfl rfl
  by_contra hnone
  push Not at hnone
  have hzero : sumOver F (gather es) = 0 := by
    refine List.sum_eq_zero fun n hn => ?_
    obtain ⟨e', he', rfl⟩ := List.mem_map.1 hn
    refine List.sum_eq_zero fun n hn => ?_
    obtain ⟨a, -, rfl⟩ := List.mem_map.1 hn
    exact if_neg (hnone e' he')
  rw [sumOver_gather hF, List.sum_eq_zero_iff] at hzero
  have hone : F e.1 e.2 = 1 := if_pos hQe
  cases hone.symm.trans (hzero _ (List.mem_map_of_mem he))

variable [Zero α] [Add α]

/-- What holds of the keys of a table and of a list of entries holds of those of the table with the
entries added. -/
theorem forall_key_addAll {t : Table κ α} {es : List (κ × α)} (ht : ∀ e ∈ t.entries, Q e.1)
    (hes : ∀ e ∈ es, Q e.1) : ∀ e ∈ (t.addAll es).entries, Q e.1 := by
  unfold addAll
  rw [entries_align]
  exact forall_key_aligned _ _ _ ht (forall_key_gather hes)

/-- What holds of the keys of all entries holds of those of their table. -/
theorem forall_key_ofEntries {es : List (κ × α)} (hes : ∀ e ∈ es, Q e.1) :
    ∀ e ∈ (ofEntries es).entries, Q e.1 :=
  forall_key_addAll (t := empty) nofun hes

/-- A key with a property is in the table of a list of entries exactly if it is in the list. -/
theorem exists_key_ofEntries_iff (hQ : ∀ k l, compare k l = .eq → (Q k ↔ Q l)) {es : List (κ × α)} :
    (∃ e ∈ (ofEntries es).entries, Q e.1) ↔ ∃ e ∈ es, Q e.1 := by
  constructor
  · rintro ⟨e, he, hQe⟩
    by_contra hnone
    push Not at hnone
    exact forall_key_ofEntries (Q := fun k => ¬Q k) hnone e he hQe
  · rintro ⟨e, he, hQe⟩
    obtain ⟨e', he', hQe'⟩ := exists_key_gather hQ he hQe
    have hentries : (ofEntries es).entries =
        (gather es).entries.map fun e => (e.1, e.2.foldl (· + ·) 0) := by
      unfold ofEntries addAll
      rw [entries_align]
      exact aligned.eq_1 ..
    rw [hentries]
    exact ⟨_, List.mem_map_of_mem he', hQe'⟩

/-- A key of a table with entries added is a key of the table or of one of the entries. -/
lemma keys_addAll_subset (t : Table κ α) (es : List (κ × α)) :
    (t.addAll es).keys ⊆ t.keys ++ es.map (·.1) :=
  List.forall_mem_map.2 <| forall_key_addAll (Q := fun k => k ∈ t.keys ++ es.map (·.1))
    (fun _ he => List.mem_append_left _ (List.mem_map_of_mem he))
    fun _ he => List.mem_append_right _ (List.mem_map_of_mem he)

/-- A key of a table is the key of an entry that it is made of. -/
lemma keys_ofEntries_subset (es : List (κ × α)) : (ofEntries es).keys ⊆ es.map (·.1) :=
  keys_addAll_subset empty es

/-- If equal keys are written in one form, then the keys of a table are the keys of the entries that it is
made of. -/
theorem mem_keys_ofEntries {es : List (κ × α)}
    (hforms : ∀ e ∈ es, ∀ e' ∈ es, compare e.1 e'.1 = .eq → e.1 = e'.1) {k : κ} :
    k ∈ (ofEntries es).keys ↔ k ∈ es.map (·.1) := by
  refine ⟨fun h => keys_ofEntries_subset es h, fun h => ?_⟩
  obtain ⟨e, he, rfl⟩ := List.mem_map.1 h
  have hequal (k l : κ) (hkl : compare k l = .eq) : compare k e.1 = .eq ↔ compare l e.1 = .eq := by
    rw [Std.TransCmp.congr_left hkl]
  obtain ⟨e', he', hcompare⟩ := (exists_key_ofEntries_iff (Q := fun l => compare l e.1 = .eq) hequal).2
    ⟨e, he, Std.ReflCmp.compare_self⟩
  have hkey : e'.1 ∈ (ofEntries es).keys := List.mem_map_of_mem he'
  obtain ⟨e'', he'', hform⟩ := List.mem_map.1 (keys_ofEntries_subset es hkey)
  rwa [← hform, hforms e'' he'' e he (hform ▸ hcompare)] at hkey

/-- Keys that ascend strictly are different. -/
lemma nodup_of_ascending {ks : List κ} (h : ks.Pairwise fun k l => compare k l = .lt) : ks.Nodup :=
  h.imp fun hlt heq => by
    rw [heq] at hlt
    cases hlt.symm.trans Std.ReflCmp.compare_self

omit [Std.TransOrd κ] in
/-- The keys of a table ascend strictly. -/
lemma ascending_keys {α : Type} (t : Table κ α) : t.keys.Pairwise fun k l => compare k l = .lt :=
  List.pairwise_map.2 t.ordered

/-- A list of keys that ascends strictly is the list of the keys of a table if it has the same members. -/
theorem keys_eq_of_mem_iff {α : Type} {t : Table κ α} {ks : List κ}
    (hks : ks.Pairwise fun k l => compare k l = .lt) (hmem : ∀ k, k ∈ t.keys ↔ k ∈ ks) :
    t.keys = ks := by
  have hperm := (List.perm_ext_iff_of_nodup (nodup_of_ascending t.ascending_keys)
    (nodup_of_ascending hks)).2 hmem
  refine hperm.eq_of_pairwise (fun k l _ _ hkl hlk => ?_) t.ascending_keys hks
  cases (Std.OrientedCmp.gt_of_lt hkl).symm.trans hlk

omit [Zero α] [Add α] in
/-- A table has no more keys than a list in which they all are. -/
lemma size_le_of_subset {t : Table κ α} {ks : List κ} (h : t.keys ⊆ ks) : t.size ≤ ks.length := by
  have hlength := ((nodup_of_ascending t.ascending_keys).subperm h).length_le
  rwa [keys, List.length_map] at hlength

/-- Adding entries to a table adds no more keys than there are entries. -/
theorem size_addAll_le (t : Table κ α) (es : List (κ × α)) :
    (t.addAll es).size ≤ t.size + es.length := by
  have hsize := size_le_of_subset (t.keys_addAll_subset es)
  rwa [List.length_append, keys, List.length_map, List.length_map] at hsize

/-- A table has no more keys than entries that it is made of. -/
theorem size_ofEntries_le (es : List (κ × α)) : (ofEntries es).size ≤ es.length :=
  (size_addAll_le empty es).trans_eq (Nat.zero_add _)

end Table

end DiceCalculus
