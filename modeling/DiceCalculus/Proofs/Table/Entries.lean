import DiceCalculus.Proofs.Table.Same

set_option autoImplicit false
set_option relaxedAutoImplicit false

/-!
# Entries added one after the other

A table is built in one go: its entries are collected by key, in runs that are joined pairwise, and
then added up. The table is nevertheless the one that comes of adding the entries one after the other:
a key is written as it is first, and its values are added from the left in the order of the list,
whatever addition does. The proof needs no law of addition, since no two additions are exchanged.

## Main definitions

* `Table.entryAt?`, `Table.form?` — the entry of a key, and the form in which a key is written.
* `Table.valuesAt` — the values of a list of entries at a key.
* `Table.addEntry` — a table with one entry added to it.
* `Table.TakesIn` — what a table says of every key after it took in entries.

## Main results

* `Table.entryAt?_aligned` — the entry of a key in two lists side by side.
* `Table.form?_gather`, `Table.getD_find?_gather` — what a collection says of a key.
* `Table.eq_of_form?_of_find?` — a table is what it says of all keys.
* `Table.addAll_eq_foldl` — entries are added one after the other.
* `Table.takesIn_addAll`, `Table.TakesIn.unique` — what a table says of every key, which determines it.
-/

namespace DiceCalculus

namespace Table

variable {κ α β γ : Type} [Ord κ]

/-! ## What is said of a key -/

/-- The first entry of a list with a key, in whichever form this is written. -/
def entryAt? (k : κ) (es : List (κ × α)) : Option (κ × α) := es.find? fun e => compare e.1 k == .eq

/-- The form in which a key of a table is written. -/
def form? (t : Table κ α) (k : κ) : Option κ := (entryAt? k t.entries).map (·.1)

/-- The values of a list of entries at a key, in the order of the list. -/
def valuesAt (k : κ) (es : List (κ × α)) : List α :=
  (es.filter fun e => compare e.1 k == .eq).map (·.2)

section Lists

variable (k : κ) (e : κ × α) (es ds : List (κ × α))

/-- The entry of a key in a list with one more entry in front. -/
lemma entryAt?_cons :
    entryAt? k (e :: es) = if compare e.1 k = .eq then some e else entryAt? k es := by
  unfold entryAt?
  by_cases h : compare e.1 k = .eq <;> simp [h]

/-- The entry of a key in two lists in turn. -/
lemma entryAt?_append : entryAt? k (es ++ ds) = (entryAt? k es).or (entryAt? k ds) :=
  List.find?_append

/-- The entry of a key in a list of entries with other values. -/
lemma entryAt?_map (f : α → β) :
    entryAt? k (es.map fun e => (e.1, f e.2)) = (entryAt? k es).map fun e => (e.1, f e.2) :=
  List.find?_map ..

/-- The values at a key of a list with one more entry in front. -/
lemma valuesAt_cons :
    valuesAt k (e :: es) = if compare e.1 k = .eq then e.2 :: valuesAt k es else valuesAt k es := by
  unfold valuesAt
  by_cases h : compare e.1 k = .eq <;> simp [h]

/-- The values at a key in two lists in turn. -/
lemma valuesAt_append : valuesAt k (es ++ ds) = valuesAt k es ++ valuesAt k ds := by
  unfold valuesAt
  rw [List.filter_append, List.map_append]

end Lists

/-- The entry of a key in the table of one entry. -/
lemma entryAt?_single (k l : κ) (a : α) :
    entryAt? k (single l a).entries = if compare l k = .eq then some (l, a) else none :=
  entryAt?_cons k (l, a) []

variable {k : κ} {t t' : Table κ α}

/-- A key has a value in a table if it is written there. -/
lemma find?_eq_none_iff : t.find? k = none ↔ t.form? k = none := by
  unfold find? form? entryAt?
  rw [Option.map_eq_none_iff, Option.map_eq_none_iff]

variable [Std.TransOrd κ]

/-- A key below those of all entries has no entry. -/
lemma entryAt?_eq_none_of_lt {es : List (κ × α)} (h : ∀ e ∈ es, compare k e.1 = .lt) :
    entryAt? k es = none := by
  refine List.find?_eq_none.2 fun e he heq => ?_
  cases (h e he).symm.trans (Std.OrientedCmp.eq_symm (eq_of_beq heq))

/-- A key below the first one of an ascending list has no entry. -/
lemma entryAt?_cons_eq_none {e : κ × α} {es : List (κ × α)}
    (h : (e :: es).Pairwise fun a b => compare a.1 b.1 = .lt) (hk : compare k e.1 = .lt) :
    entryAt? k (e :: es) = none := by
  refine entryAt?_eq_none_of_lt (List.forall_mem_cons.2 ⟨hk, fun d hd => ?_⟩)
  exact Std.TransCmp.lt_trans hk ((List.pairwise_cons.1 h).1 d hd)

/-- Keys that compare equal have one entry. -/
lemma entryAt?_congr {l : κ} (h : compare k l = .eq) (es : List (κ × α)) :
    entryAt? k es = entryAt? l es := by
  unfold entryAt?
  simp only [Std.TransCmp.congr_right h]

/-- An entry of a table is the one at its key. -/
lemma entryAt?_of_mem {e : κ × α} (he : e ∈ t.entries) : entryAt? e.1 t.entries = some e := by
  obtain ⟨es, hes⟩ := t
  change e ∈ es at he
  show entryAt? e.1 es = some e
  induction es with
  | nil => cases he
  | cons d es ih =>
    obtain ⟨hd, hes⟩ := List.pairwise_cons.1 hes
    rw [entryAt?_cons]
    rcases List.mem_cons.1 he with rfl | he
    · rw [if_pos Std.ReflCmp.compare_self]
    · rw [if_neg (by rw [hd e he]; decide)]
      exact ih hes he

/-- A key of a table is written as it is there. -/
lemma form?_of_mem {e : κ × α} (he : e ∈ t.entries) : t.form? e.1 = some e.1 :=
  congrArg (Option.map Prod.fst) (entryAt?_of_mem he)

/-- A key of a table has the value that it has there. -/
lemma find?_of_mem {e : κ × α} (he : e ∈ t.entries) : t.find? e.1 = some e.2 :=
  congrArg (Option.map Prod.snd) (entryAt?_of_mem he)

/-- Keys of a table are equal only if they are the same. -/
lemma eq_of_compare_eq {k l : κ} (hk : k ∈ t.keys) (hl : l ∈ t.keys) (h : compare k l = .eq) :
    k = l := by
  obtain ⟨e, he, rfl⟩ := List.mem_map.1 hk
  obtain ⟨e', he', rfl⟩ := List.mem_map.1 hl
  have hform : t.form? e.1 = t.form? e'.1 :=
    congrArg (Option.map Prod.fst) (entryAt?_congr h t.entries)
  rw [form?_of_mem he, form?_of_mem he'] at hform
  exact Option.some_inj.1 hform

/-- Tables that say the same of every key are the same. -/
theorem eq_of_form?_of_find? (hform : ∀ k, t.form? k = t'.form? k)
    (hfind : ∀ k, t.find? k = t'.find? k) : t = t' := by
  obtain ⟨hlength, hsame⟩ := List.forall₂_iff_zip.1 (same_of_find? hfind)
  have hentries : List.Forall₂ Eq t.entries t'.entries := by
    refine List.forall₂_iff_zip.2 ⟨hlength, fun {e e'} hmem => ?_⟩
    obtain ⟨heq, hvalue⟩ : EntrySame e e' := hsame hmem
    obtain ⟨he, he'⟩ := List.of_mem_zip hmem
    have hkey : some e.1 = some e'.1 := by
      rw [← form?_of_mem he, ← form?_of_mem he', hform]
      exact congrArg (Option.map _) (entryAt?_congr heq _)
    exact Prod.ext (Option.some_inj.1 hkey) hvalue
  rw [List.forall₂_eq_eq_eq] at hentries
  exact eq_of_entries hentries

/-! ## Two tables side by side -/

section Align

variable (both : α → β → γ) (left : α → γ) (right : β → γ)

/-- The entry of a key in two lists side by side is made of those in each.

**Proof sketch.** By induction over the two lists. The head of the aligned list is the smaller one of
the two heads. If it has the key, the other list has no entry with it unless its head compares equal. -/
theorem entryAt?_aligned (k : κ) {as : List (κ × α)} {bs : List (κ × β)}
    (has : as.Pairwise fun a b => compare a.1 b.1 = .lt)
    (hbs : bs.Pairwise fun a b => compare a.1 b.1 = .lt) :
    entryAt? k (aligned both left right as bs) =
      match entryAt? k as, entryAt? k bs with
      | some a, some b => some (a.1, both a.2 b.2)
      | some a, none => some (a.1, left a.2)
      | none, some b => some (b.1, right b.2)
      | none, none => none := by
  fun_induction aligned both left right as bs with
  | case1 bs =>
    rw [entryAt?_map]
    cases entryAt? k bs <;> rfl
  | case2 as _ =>
    rw [entryAt?_map]
    cases entryAt? k as <;> rfl
  | case3 l a as m b bs hlm ih =>
    rw [entryAt?_cons]
    by_cases h : compare l k = .eq
    · have hkm : compare k m = .lt := Std.TransCmp.lt_of_eq_of_lt (Std.OrientedCmp.eq_symm h) hlm
      rw [if_pos h, entryAt?_cons_eq_none hbs hkm, entryAt?_cons, if_pos h]
    · rw [if_neg h, ih has.of_cons hbs, entryAt?_cons k (l, a), if_neg h]
  | case4 l a as m b bs hlm ih =>
    rw [entryAt?_cons, entryAt?_cons, entryAt?_cons]
    simp only [Std.TransCmp.congr_left hlm]
    by_cases h : compare m k = .eq
    · simp only [if_pos h]
    · simp only [if_neg h]
      exact ih has.of_cons hbs.of_cons
  | case5 l a as m b bs hlm ih =>
    have hml : compare m l = .lt := Std.OrientedCmp.lt_of_gt hlm
    rw [entryAt?_cons]
    by_cases h : compare m k = .eq
    · have hkl : compare k l = .lt := Std.TransCmp.lt_of_eq_of_lt (Std.OrientedCmp.eq_symm h) hml
      rw [if_pos h, entryAt?_cons_eq_none has hkl, entryAt?_cons, if_pos h]
    · rw [if_neg h, ih has hbs.of_cons, entryAt?_cons k (m, b), if_neg h]

variable (s : Table κ α) (t : Table κ β) (k : κ)

/-- A key of two tables side by side is written as in the first one that has it. -/
lemma form?_align : (align both left right s t).form? k = (s.form? k).or (t.form? k) := by
  unfold form?
  rw [entries_align, entryAt?_aligned both left right k s.ordered t.ordered]
  cases entryAt? k s.entries <;> cases entryAt? k t.entries <;> rfl

/-- The value of a key in two tables side by side. -/
lemma find?_align : (align both left right s t).find? k =
    match s.find? k, t.find? k with
    | some a, some b => some (both a b)
    | some a, none => some (left a)
    | none, some b => some (right b)
    | none, none => none := by
  show (entryAt? k (align both left right s t).entries).map (·.2) =
    match (entryAt? k s.entries).map (·.2), (entryAt? k t.entries).map (·.2) with
    | some a, some b => some (both a b)
    | some a, none => some (left a)
    | none, some b => some (right b)
    | none, none => none
  rw [entries_align, entryAt?_aligned both left right k s.ordered t.ordered]
  cases entryAt? k s.entries <;> cases entryAt? k t.entries <;> rfl

end Align

/-! ## Entries collected by key -/

/-- A key of a joined collection is written as in the first one that has it. -/
lemma form?_join (s t : Table κ (List α)) (k : κ) :
    (join s t).form? k = (s.form? k).or (t.form? k) := form?_align _ _ _ s t k

/-- The values at a key in a joined collection are those of the first one and then those of the
second. -/
lemma getD_find?_join (s t : Table κ (List α)) (k : κ) :
    ((join s t).find? k).getD [] = (s.find? k).getD [] ++ (t.find? k).getD [] := by
  unfold join
  rw [find?_align]
  cases s.find? k <;> cases t.find? k <;> simp

/-- A key of a collection is written as in the first entry that has it. -/
theorem form?_gather (es : List (κ × α)) (k : κ) :
    (gather es).form? k = (entryAt? k es).map (·.1) := by
  refine gather_induction (R := fun t es => t.form? k = (entryAt? k es).map (·.1)) rfl
    (fun l a => ?_) (fun s t es ds hs ht => ?_) es
  · unfold form?
    rw [entryAt?_single, entryAt?_cons]
    split <;> rfl
  · rw [form?_join, hs, ht, entryAt?_append]
    cases entryAt? k es <;> rfl

/-- The values at a key in a collection are those of the entries that have it, in their order. -/
theorem getD_find?_gather (es : List (κ × α)) (k : κ) :
    ((gather es).find? k).getD [] = valuesAt k es := by
  refine gather_induction (R := fun t es => (t.find? k).getD [] = valuesAt k es) rfl
    (fun l a => ?_) (fun s t es ds hs ht => ?_) es
  · show ((entryAt? k (single l [a]).entries).map (·.2)).getD [] = _
    rw [entryAt?_single, valuesAt_cons]
    split <;> rfl
  · rw [getD_find?_join, hs, ht, valuesAt_append]

/-! ## Entries added into a table -/

section Form

omit [Std.TransOrd κ]

/-- The form of a key in a table is the first among its keys that compares equal. -/
lemma form?_eq_find? (t : Table κ α) (k : κ) :
    t.form? k = t.keys.find? fun l => compare l k == .eq := by
  unfold keys
  rw [List.find?_map]
  rfl

/-- The form of a key in a table, and otherwise in a list of entries, is the first among all keys. -/
lemma form?_or_eq_find? (t : Table κ α) (es : List (κ × α)) (k : κ) :
    (t.form? k).or ((entryAt? k es).map (·.1)) =
      (t.keys ++ es.map (·.1)).find? fun l => compare l k == .eq := by
  rw [List.find?_append, form?_eq_find?, List.find?_map]
  rfl

end Form

variable [Zero α] [Add α]

/-- A table takes in entries and becomes another one: what this one says of every key. -/
structure TakesIn (t : Table κ α) (es : List (κ × α)) (t' : Table κ α) : Prop where
  /-- No key is repeated, and none is out of order. -/
  ascending : t'.keys.Pairwise fun k l => compare k l = .lt
  /-- The keys are those that were there before and those of the entries. -/
  complete : ∀ k, (∃ l ∈ t'.keys, compare l k = .eq) ↔
    (∃ l ∈ t.keys, compare l k = .eq) ∨ ∃ e ∈ es, compare e.1 k = .eq
  /-- A key is written as it was before, and a new one as in the first entry that has it. -/
  written : ∀ k ∈ t'.keys, (t.keys ++ es.map (·.1)).find? (fun l => compare l k == .eq) = some k
  /-- The values of the entries with a key are added from the left to the one that was there before,
  and to zero if there was none. -/
  value : ∀ k, (t'.find? k).getD 0 =
    ((es.filter fun e => compare e.1 k == .eq).map (·.2)).foldl (· + ·) ((t.find? k).getD 0)

variable {t₁ : Table κ α} {es ds : List (κ × α)}

/-- What a table says of every key, in terms of the forms of the keys.

**Proof sketch.** The first form of a key in a list is found exactly if the key is written there, and it
is then the first form of itself. -/
lemma takesIn_iff_form? : t.TakesIn es t' ↔
    (∀ k, t'.form? k = (t.form? k).or ((entryAt? k es).map (·.1))) ∧
      ∀ k, (t'.find? k).getD 0 = (valuesAt k es).foldl (· + ·) ((t.find? k).getD 0) := by
  have hwritten (k : κ) : (∃ l ∈ t.keys, compare l k = .eq) ∨ (∃ e ∈ es, compare e.1 k = .eq) ↔
      ∃ l ∈ t.keys ++ es.map (·.1), compare l k = .eq := by
    simp only [List.mem_append, List.mem_map, or_and_right, exists_or, exists_exists_and_eq_and]
  have hsome (k : κ) (ks : List κ) :
      (∃ l ∈ ks, compare l k = .eq) ↔ (ks.find? fun l => compare l k == .eq).isSome = true := by
    simp only [List.find?_isSome, beq_iff_eq]
  simp only [form?_or_eq_find?]
  constructor
  · refine fun h => ⟨fun k => ?_, h.value⟩
    rw [form?_eq_find?]
    cases hfind : t'.keys.find? fun l => compare l k == .eq with
    | none =>
      refine (Option.not_isSome_iff_eq_none.1 fun h' => ?_).symm
      have hkey := (hsome k _).1 ((h.complete k).2 ((hwritten k).2 ((hsome k _).2 h')))
      rw [hfind] at hkey
      cases hkey
    | some l =>
      have heq : compare l k = .eq := eq_of_beq (List.find?_some (p := fun l => compare l k == .eq) hfind)
      rw [← h.written l (List.mem_of_find?_eq_some hfind)]
      simp only [Std.TransCmp.congr_right heq]
  · rintro ⟨hform, hvalue⟩
    refine ⟨List.pairwise_map.2 t'.ordered, fun k => ?_, fun k hk => ?_, hvalue⟩
    · rw [hwritten, hsome, hsome, ← hform, form?_eq_find?]
    · obtain ⟨e, he, rfl⟩ := List.mem_map.1 hk
      rw [← hform, form?_of_mem he]

namespace TakesIn

/-- What a table says of every key determines it. -/
theorem unique (h : t.TakesIn es t') (h₁ : t.TakesIn es t₁) : t' = t₁ := by
  rw [takesIn_iff_form?] at h h₁
  have hform (k : κ) : t'.form? k = t₁.form? k := (h.1 k).trans (h₁.1 k).symm
  refine eq_of_form?_of_find? hform fun k => ?_
  have hvalue : (t'.find? k).getD 0 = (t₁.find? k).getD 0 := (h.2 k).trans (h₁.2 k).symm
  have hnone : t'.find? k = none ↔ t₁.find? k = none := by
    rw [find?_eq_none_iff, find?_eq_none_iff, hform]
  cases hfind : t'.find? k <;> cases hfind₁ : t₁.find? k <;> simp_all

/-- A table that takes in no entries. -/
lemma refl (t : Table κ α) : t.TakesIn [] t :=
  takesIn_iff_form?.2 ⟨fun _ => Option.or_none.symm, fun _ => rfl⟩

/-- Entries that are taken in one list after the other. -/
lemma trans (h : t.TakesIn es t₁) (h' : t₁.TakesIn ds t') : t.TakesIn (es ++ ds) t' := by
  rw [takesIn_iff_form?] at h h' ⊢
  refine ⟨fun k => ?_, fun k => ?_⟩
  · rw [h'.1, h.1, entryAt?_append, Option.map_or, Option.or_assoc]
  · rw [h'.2, h.2, valuesAt_append, List.foldl_append]

end TakesIn

/-- Entries that are collected and added at once. -/
theorem takesIn_addAll (t : Table κ α) (es : List (κ × α)) : t.TakesIn es (t.addAll es) := by
  refine takesIn_iff_form?.2 ⟨fun k => ?_, fun k => ?_⟩
  · unfold addAll
    rw [form?_align, form?_gather]
  · have hvalues := getD_find?_gather es k
    unfold addAll
    rw [find?_align, ← hvalues]
    cases t.find? k <;> cases (gather es).find? k <;> rfl

/-! ## One entry after the other -/

/-- Adds a value at a key of ascending entries. A key that is there keeps its form, and a new one starts
from zero. -/
def addTo (k : κ) (a : α) : List (κ × α) → List (κ × α)
  | [] => [(k, 0 + a)]
  | (l, b) :: es =>
    match compare l k with
    | .lt => (l, b) :: addTo k a es
    | .eq => (l, b + a) :: es
    | .gt => (k, 0 + a) :: (l, b) :: es

omit [Std.TransOrd κ] in
/-- Adding a value at a key puts the entries and the new one side by side. -/
lemma addTo_eq_aligned (k : κ) (a : α) (es : List (κ × α)) :
    addTo k a es = aligned (· + ·) id (0 + ·) es [(k, a)] := by
  induction es with
  | nil => simp [addTo, aligned]
  | cons e es ih =>
    obtain ⟨l, b⟩ := e
    rw [addTo, aligned]
    cases compare l k with
    | lt => exact congrArg ((l, b) :: ·) ih
    | eq => cases es <;> simp [aligned]
    | gt => simp [aligned]

/-- A table with one entry added to it. -/
def addEntry (t : Table κ α) (e : κ × α) : Table κ α where
  entries := addTo e.1 e.2 t.entries
  ordered := by
    rw [addTo_eq_aligned]
    exact pairwise_aligned _ _ _ t.ordered (List.pairwise_singleton ..)

/-- A table with one entry added to it is the table and the entry side by side. -/
lemma addEntry_eq_align (t : Table κ α) (e : κ × α) :
    t.addEntry e = align (· + ·) id (0 + ·) t (single e.1 e.2) := by
  refine eq_of_entries ?_
  rw [entries_align]
  exact addTo_eq_aligned ..

/-- An entry that is added changes the value at its key, in whichever form this is written, and no
other. -/
lemma find?_addEntry (t : Table κ α) (e : κ × α) (k : κ) : (t.addEntry e).find? k =
    if compare e.1 k = .eq then some ((t.find? k).getD 0 + e.2) else t.find? k := by
  have hsingle : (single e.1 e.2).find? k = if compare e.1 k = .eq then some e.2 else none := by
    show (entryAt? k (single e.1 e.2).entries).map (·.2) = _
    rw [entryAt?_single]
    split <;> rfl
  rw [addEntry_eq_align, find?_align, hsingle]
  by_cases h : compare e.1 k = .eq
  · rw [if_pos h, if_pos h]
    cases t.find? k <;> rfl
  · rw [if_neg h, if_neg h]
    cases t.find? k <;> rfl

/-- An entry that is added. -/
lemma takesIn_addEntry (t : Table κ α) (e : κ × α) : t.TakesIn [e] (t.addEntry e) := by
  refine takesIn_iff_form?.2 ⟨fun k => ?_, fun k => ?_⟩
  · rw [addEntry_eq_align, form?_align]
    rfl
  · rw [find?_addEntry, valuesAt_cons]
    split <;> rfl

/-- Entries that are collected and added at once are added one after the other. -/
theorem addAll_eq_foldl (t : Table κ α) (es : List (κ × α)) : t.addAll es = es.foldl addEntry t := by
  refine (takesIn_addAll t es).unique ?_
  induction es generalizing t with
  | nil => exact .refl t
  | cons e es ih => exact (takesIn_addEntry t e).trans (ih _)

end Table

end DiceCalculus
