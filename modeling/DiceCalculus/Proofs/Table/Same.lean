import DiceCalculus.Proofs.Table.Sums
import Mathlib.Data.List.Forall2

set_option autoImplicit false
set_option relaxedAutoImplicit false

/-!
# Tables with keys in other forms

A table keeps one of the forms in which a key was written. What is built of entries with the same
values under keys that compare equal are tables with the same values under keys that compare equal,
since all that is asked of a key on the way is how it compares.

## Main definitions

* `Table.EntrySame`, `Table.Same` — entries and tables with the same values under keys that compare
  equal.

## Main results

* `Table.same_aligned`, `Table.same_gather` — two tables side by side, and entries collected by key.
* `Table.Same.addAll`, `Table.same_ofEntries` — tables that are built.
* `Table.Same.find?`, `Table.same_of_find?` — tables have the same values if they have the same value
  at every key, in whichever form it is written.
-/

namespace DiceCalculus

namespace Table

variable {κ α β γ : Type} [Ord κ]

/-- Entries with the same value, under keys that compare equal. -/
def EntrySame (e e' : κ × α) : Prop := compare e.1 e'.1 = .eq ∧ e.2 = e'.2

/-- Tables with the same values, under keys that compare equal one by one. -/
def Same (t t' : Table κ α) : Prop := List.Forall₂ EntrySame t.entries t'.entries

/-- Entries with the same value keep it so under a function of it. -/
lemma EntrySame.map {e e' : κ × α} (h : EntrySame e e') (f : α → β) :
    EntrySame (e.1, f e.2) (e'.1, f e'.2) := ⟨h.1, congrArg f h.2⟩

/-- Entries with the same values keep them so under a function of these. -/
lemma forall₂_entrySame_map {es es' : List (κ × α)} (h : List.Forall₂ EntrySame es es') (f : α → β) :
    List.Forall₂ EntrySame (es.map fun e => (e.1, f e.2)) (es'.map fun e => (e.1, f e.2)) :=
  List.rel_map (fun _ _ he => he.map f) h

/-- Tables with the same values have the same number of keys. -/
lemma Same.size_eq {t t' : Table κ α} (h : t.Same t') : t.size = t'.size := List.Forall₂.length_eq h

/-- Entries with the same values have the same list of values. -/
lemma map_snd_eq {es es' : List (κ × α)} (h : List.Forall₂ EntrySame es es') :
    es.map (·.2) = es'.map (·.2) :=
  List.forall₂_eq_eq_eq ▸ List.rel_map (fun _ _ he => he.2) h

/-- Tables with the same values have the same list of values. -/
lemma Same.values_eq {t t' : Table κ α} (h : t.Same t') : t.values = t'.values := map_snd_eq h

variable [Std.TransOrd κ]

/-- A table has the same values as itself. -/
lemma Same.refl (t : Table κ α) : t.Same t :=
  List.forall₂_same.2 fun _ _ => ⟨Std.ReflCmp.compare_self, rfl⟩

/-- Tables with the same values as a third have the same values. -/
lemma Same.trans {s t u : Table κ α} (hst : s.Same t) (htu : t.Same u) : s.Same u := by
  unfold Same at hst htu ⊢
  generalize s.entries = as, t.entries = bs, u.entries = cs at hst htu ⊢
  induction hst generalizing cs with
  | nil => exact htu
  | cons h _ ih =>
    obtain _ | ⟨h', htail⟩ := htu
    exact .cons ⟨Std.TransCmp.eq_trans h.1 h'.1, h.2.trans h'.2⟩ (ih _ htail)

/-! ## Two tables side by side -/

section Align

variable (both : α → β → γ) (left : α → γ) (right : β → γ)

/-- Lists of entries with the same values have the same values side by side.

**Proof sketch.** By induction along the alignment. Keys that are equal as outcomes compare in the
same way, so that both alignments take the same step, and the entries that they put in front have
the same values. -/
theorem same_aligned {as as' : List (κ × α)} {bs bs' : List (κ × β)}
    (has : List.Forall₂ EntrySame as as') (hbs : List.Forall₂ EntrySame bs bs') :
    List.Forall₂ EntrySame (aligned both left right as bs) (aligned both left right as' bs') := by
  have hcompare {e e' : κ × α} {d d' : κ × β} (he : EntrySame e e') (hd : EntrySame d d') :
      compare e'.1 d'.1 = compare e.1 d.1 :=
    ((Std.TransCmp.congr_left he.1).trans (Std.TransCmp.congr_right hd.1)).symm
  fun_induction aligned both left right as bs generalizing as' bs' with
  | case1 bs =>
    cases has
    rw [aligned]
    exact forall₂_entrySame_map hbs right
  | case2 as hne =>
    cases hbs
    cases has with
    | nil => exact absurd rfl hne
    | cons he has =>
      rw [aligned]
      · exact forall₂_entrySame_map (.cons he has) left
      · exact List.cons_ne_nil _ _
  | case3 k a as l b bs hkl ih =>
    obtain _ | ⟨he, has⟩ := has
    obtain _ | ⟨hd, hbs⟩ := hbs
    rw [aligned, hcompare he hd, hkl]
    exact .cons (he.map left) (ih has (.cons hd hbs))
  | case4 k a as l b bs hkl ih =>
    obtain _ | ⟨he, has⟩ := has
    obtain _ | ⟨hd, hbs⟩ := hbs
    rw [aligned, hcompare he hd, hkl]
    exact .cons ⟨he.1, congrArg₂ both he.2 hd.2⟩ (ih has hbs)
  | case5 k a as l b bs hkl ih =>
    obtain _ | ⟨he, has⟩ := has
    obtain _ | ⟨hd, hbs⟩ := hbs
    rw [aligned, hcompare he hd, hkl]
    exact .cons (hd.map right) (ih (.cons he has) hbs)

/-- Tables with the same values have the same values side by side. -/
lemma Same.align {s s' : Table κ α} {t t' : Table κ β} (hs : s.Same s') (ht : t.Same t') :
    (align both left right s t).Same (align both left right s' t') := by
  unfold Same
  rw [entries_align, entries_align]
  exact same_aligned both left right hs ht

end Align

/-! ## Entries collected by key -/

/-- Runs with the same values keep them so when an entry is put in front of both.

**Proof sketch.** A key and one that is equal to it compare in the same way with the first key of a
run, so that both entries start a new run, join the first entry of the first run, or are put in
front of it. The six cases in which the comparisons differ are impossible. -/
lemma same_pushRun {k k' : κ} (hk : compare k k' = .eq) (a : α)
    {runs runs' : List (Table κ (List α))} (h : List.Forall₂ Same runs runs') :
    List.Forall₂ Same (pushRun k a runs) (pushRun k' a runs') := by
  have hsingle : (single k [a]).Same (single k' [a]) := .cons ⟨hk, rfl⟩ .nil
  cases h with
  | nil => exact .cons hsingle .nil
  | @cons run run' runs runs' hrun hruns =>
    obtain ⟨entries, hordered⟩ := run
    obtain ⟨entries', hordered'⟩ := run'
    change List.Forall₂ EntrySame entries entries' at hrun
    cases hrun with
    | nil => exact .cons hsingle hruns
    | @cons e e' rest rest' he hrest =>
      obtain ⟨l, as⟩ := e
      obtain ⟨l', as'⟩ := e'
      obtain ⟨hl, rfl⟩ : compare l l' = .eq ∧ as = as' := he
      have hcompare : compare k' l' = compare k l :=
        ((Std.TransCmp.congr_left hk).trans (Std.TransCmp.congr_right hl)).symm
      have hfirst : EntrySame (l, as) (l', as) := ⟨hl, rfl⟩
      unfold pushRun
      simp only
      split
      · next hlt =>
        split
        · exact .cons (.cons ⟨hk, rfl⟩ (.cons hfirst hrest)) hruns
        · next heq => cases hlt.symm.trans (hcompare.symm.trans heq)
        · next hgt => cases hlt.symm.trans (hcompare.symm.trans hgt)
      · next heq =>
        split
        · next hlt => cases heq.symm.trans (hcompare.symm.trans hlt)
        · exact .cons (.cons ⟨hk, rfl⟩ hrest) hruns
        · next hgt => cases heq.symm.trans (hcompare.symm.trans hgt)
      · next hgt =>
        split
        · next hlt => cases hgt.symm.trans (hcompare.symm.trans hlt)
        · next heq => cases hgt.symm.trans (hcompare.symm.trans heq)
        · exact .cons hsingle (.cons (.cons hfirst hrest) hruns)

/-- Entries with the same values have runs with the same values. -/
lemma same_ascendingRuns {es es' : List (κ × α)} (h : List.Forall₂ EntrySame es es') :
    List.Forall₂ Same (ascendingRuns es) (ascendingRuns es') := by
  induction h with
  | nil => exact .nil
  | @cons e e' _ _ he _ ih =>
    obtain ⟨k, a⟩ := e
    obtain ⟨k', a'⟩ := e'
    obtain ⟨hk, rfl⟩ : compare k k' = .eq ∧ a = a' := he
    exact same_pushRun hk a ih

/-- Collections with the same values are joined to ones with the same values. -/
lemma same_joinAll (halvings : Nat) {ts ts' : List (Table κ (List α))}
    (h : List.Forall₂ Same ts ts') : (joinAll halvings ts).Same (joinAll halvings ts') := by
  induction halvings generalizing ts ts' with
  | zero =>
    have hfold {s s' : Table κ (List α)} (hs : s.Same s') :
        (ts.foldl join s).Same (ts'.foldl join s') := by
      induction h generalizing s s' with
      | nil => exact hs
      | cons ht _ ih => exact ih (hs.align _ _ _ ht)
    exact hfold (.refl empty)
  | succ halvings ih =>
    unfold joinAll
    rw [h.length_eq]
    exact (ih (List.forall₂_take _ h)).align _ _ _ (ih (List.forall₂_drop _ h))

/-- Entries with the same values are collected to the same values. -/
theorem same_gather {es es' : List (κ × α)} (h : List.Forall₂ EntrySame es es') :
    (gather es).Same (gather es') := by
  have hruns := same_ascendingRuns h
  unfold gather
  simp only [hruns.length_eq]
  exact same_joinAll _ hruns

variable [Zero α] [Add α]

/-- Entries with the same values, added into tables with the same values. -/
theorem Same.addAll {t t' : Table κ α} (ht : t.Same t') {es es' : List (κ × α)}
    (h : List.Forall₂ EntrySame es es') : (t.addAll es).Same (t'.addAll es') :=
  ht.align _ _ _ (same_gather h)

/-- Entries with the same values make tables with the same values. -/
theorem same_ofEntries {es es' : List (κ × α)} (h : List.Forall₂ EntrySame es es') :
    (ofEntries es).Same (ofEntries es') := Same.addAll (.refl empty) h

omit [Zero α] [Add α]

/-- A key has the same value in tables with the same values, in whichever form it is written. -/
theorem Same.find? {t t' : Table κ α} (h : t.Same t') {k k' : κ} (hk : compare k k' = .eq) :
    t.find? k = t'.find? k' := by
  unfold Table.find?
  unfold Same at h
  generalize t.entries = es, t'.entries = es' at h ⊢
  induction h with
  | nil => rfl
  | @cons e e' es es' he _ ih =>
    have hcompare : compare e.1 k = compare e'.1 k' :=
      (Std.TransCmp.congr_left he.1).trans (Std.TransCmp.congr_right hk)
    rw [List.find?_cons, List.find?_cons, hcompare]
    split
    · exact congrArg some he.2
    · exact ih

section Find

variable {e e' : κ × α} {es es' : List (κ × α)} {k : κ}
  (h : (e :: es).Pairwise fun a b => compare a.1 b.1 = .lt)
  (h' : (e' :: es').Pairwise fun a b => compare a.1 b.1 = .lt)

omit [Std.TransOrd κ] in
/-- A key has a value if it is in the table, in whichever form it is written. -/
lemma isSome_find?_iff {t : Table κ α} :
    (t.find? k).isSome = true ↔ ∃ e ∈ t.entries, compare e.1 k = .eq := by
  simp [Table.find?]

/-- A key below all keys of a table has no value. -/
lemma find?_eq_none_of_lt {t : Table κ α} (hlt : ∀ e ∈ t.entries, compare k e.1 = .lt) :
    t.find? k = none := by
  refine Option.not_isSome_iff_eq_none.1 fun hsome => ?_
  obtain ⟨e, he, heq⟩ := isSome_find?_iff.1 hsome
  cases (hlt e he).symm.trans (Std.OrientedCmp.eq_symm heq)

omit [Std.TransOrd κ] in
/-- The least key has the first value. -/
lemma find?_cons_of_eq (heq : compare e.1 k = .eq) : Table.find? ⟨e :: es, h⟩ k = some e.2 := by
  unfold Table.find?
  rw [List.find?_cons, heq]
  rfl

omit [Std.TransOrd κ] in
/-- Other keys have later values. -/
lemma find?_cons_of_ne (hne : compare e.1 k ≠ .eq) :
    Table.find? ⟨e :: es, h⟩ k = Table.find? ⟨es, (List.pairwise_cons.1 h).2⟩ k := by
  unfold Table.find?
  rw [List.find?_cons, beq_eq_false_iff_ne.2 hne]

/-- The least key has no later value. -/
lemma find?_tail_of_eq (heq : compare e.1 k = .eq) :
    Table.find? ⟨es, (List.pairwise_cons.1 h).2⟩ k = none := by
  refine find?_eq_none_of_lt fun d hd => ?_
  rw [← Std.TransCmp.congr_left heq]
  exact (List.pairwise_cons.1 h).1 d hd

/-- Tables with the same value at the least key of the first have one least key. -/
lemma compare_ne_lt_of_find? (heq : Table.find? ⟨e :: es, h⟩ e.1 = Table.find? ⟨e' :: es', h'⟩ e.1) :
    compare e.1 e'.1 ≠ .lt := fun hlt => by
  rw [find?_cons_of_eq h Std.ReflCmp.compare_self, find?_eq_none_of_lt] at heq
  · cases heq
  · refine List.forall_mem_cons.2 ⟨hlt, fun d hd => ?_⟩
    exact Std.TransCmp.lt_trans hlt ((List.pairwise_cons.1 h').1 d hd)

end Find

/-- Tables with the same value at every key have the same values.

**Proof sketch.** The least keys are compared. If one lies below the other, it has a value in its own
table and none in the other one. If they compare equal, they have the same value, and so have all later
keys, since the least ones have no later value. -/
theorem same_of_find? {t t' : Table κ α} (h : ∀ k, t.find? k = t'.find? k) : t.Same t' := by
  obtain ⟨es, hes⟩ := t
  obtain ⟨es', hes'⟩ := t'
  unfold Same
  induction es generalizing es' with
  | nil =>
    cases es' with
    | nil => exact .nil
    | cons e' es' => cases (h e'.1).trans (find?_cons_of_eq hes' Std.ReflCmp.compare_self)
  | cons e es ih =>
    cases es' with
    | nil => cases (h e.1).symm.trans (find?_cons_of_eq hes Std.ReflCmp.compare_self)
    | cons e' es' =>
      have heq : compare e.1 e'.1 = .eq := by
        cases hcompare : compare e.1 e'.1 with
        | lt => exact absurd hcompare (compare_ne_lt_of_find? hes hes' (h e.1))
        | eq => rfl
        | gt =>
          exact absurd (Std.OrientedCmp.lt_of_gt hcompare)
            (compare_ne_lt_of_find? hes' hes (h e'.1).symm)
      have hfirst := h e.1
      rw [find?_cons_of_eq hes Std.ReflCmp.compare_self,
        find?_cons_of_eq hes' (Std.OrientedCmp.eq_symm heq)] at hfirst
      refine .cons ⟨heq, Option.some.inj hfirst⟩ (ih (List.pairwise_cons.1 hes).2 es'
        (List.pairwise_cons.1 hes').2 fun k => ?_)
      by_cases hk : compare e.1 k = .eq
      · rw [find?_tail_of_eq hes hk,
          find?_tail_of_eq hes' (Std.TransCmp.eq_trans (Std.OrientedCmp.eq_symm heq) hk)]
      · have hk' : compare e'.1 k ≠ .eq := fun hk' => hk (Std.TransCmp.eq_trans heq hk')
        rw [← find?_cons_of_ne hes hk, ← find?_cons_of_ne hes' hk']
        exact h k

end Table

end DiceCalculus
