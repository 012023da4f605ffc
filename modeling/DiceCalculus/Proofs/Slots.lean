import DiceCalculus.Proofs.Expr.Parts
import DiceCalculus.Proofs.Table.Same
import Mathlib.Data.List.Flatten

set_option autoImplicit false
set_option relaxedAutoImplicit false

/-!
# Layouts and their shapes

The groups of a layout are kept in the order of their keywords, so that a layout is determined by what
it has in each place, whatever the order in which its groups were added. Two layouts of one shape have
items in the same places, and are paired place by place.

## Main definitions

* `IsAscending` — groups in the order of their keywords, without repeats.

## Main results

* `Slots.group?_ofGroups` — the group under a keyword is the last one that was added.
* `Slots.keywords_shape` — a shape lists the sizes of the groups in their order.
* `Slots.shape_eq_iff` — when two layouts have the same shape.
* `Slots.map_fst_zip`, `Slots.map_snd_zip` — layouts of one shape are paired without loss.
-/

namespace DiceCalculus

variable {α β : Type}

/-! ## Groups in the order of their keywords -/

/-- Groups in the order of their keywords, of which none is repeated. -/
def IsAscending (gs : List (String × α)) : Prop := gs.Pairwise fun g h => compare g.1 h.1 = .lt

/-- What is found under a keyword if there is one more entry in front. -/
lemma lookup_cons_eq_ite (keyword : String) (g : String × α) (gs : List (String × α)) :
    (g :: gs).lookup keyword = if keyword = g.1 then some g.2 else gs.lookup keyword := by
  rw [List.lookup_cons]
  by_cases h : keyword = g.1
  · rw [beq_iff_eq.2 h, if_pos h]
  · rw [beq_eq_false_iff_ne.2 h, if_neg h]

/-- If no keyword is repeated, what is listed under a keyword is found there. -/
lemma lookup_eq_some_iff_mem {gs : List (String × α)} (h : (gs.map (·.1)).Nodup) {keyword : String}
    {a : α} : gs.lookup keyword = some a ↔ (keyword, a) ∈ gs := by
  refine ⟨mem_of_lookup, fun hmem => ?_⟩
  obtain ⟨before, after, rfl⟩ := List.append_of_mem hmem
  refine List.lookup_eq_some_iff.2 ⟨before, after, rfl, fun g hg => bne_iff_ne.2 ?_⟩
  rw [List.map_append, List.nodup_append] at h
  exact (h.2.2 g.1 (List.mem_map_of_mem hg) keyword List.mem_cons_self).symm

/-- Different names that are paired with as many values are each found with their own. -/
lemma lookup_zip_eq_some_iff {names : List String} (h : names.Nodup) {vs : List α}
    (hlength : vs.length = names.length) (name : String) (v : α) :
    (names.zip vs).reverse.lookup name = some v ↔ ∃ i : Nat, names[i]? = some name ∧ vs[i]? = some v := by
  have hnames : ((names.zip vs).reverse.map (·.1)).Nodup := by
    rw [((List.reverse_perm _).map _).nodup_iff, List.map_fst_zip (Nat.le_of_eq hlength.symm)]
    exact h
  rw [lookup_eq_some_iff_mem hnames, List.mem_reverse, List.mem_iff_getElem?]
  simp only [List.getElem?_zip_eq_some]

namespace IsAscending

variable {gs hs : List (String × α)}

/-- No keyword of ascending groups is repeated. -/
lemma nodup (h : IsAscending gs) : (gs.map (·.1)).Nodup :=
  List.pairwise_map.2 (h.imp fun {g g'} hlt heq => by
    have hself : compare g.1 g'.1 = .eq := heq ▸ Std.ReflCmp.compare_self
    cases hlt.symm.trans hself)

/-- Ascending groups are in the same order after a function was applied to each. -/
lemma map (h : IsAscending gs) (f : α → β) : IsAscending (gs.map fun g => (g.1, f g.2)) :=
  List.pairwise_map.2 h

/-- What is found in a table of groups is what is found in their list. -/
lemma find?_eq_lookup (h : IsAscending gs) (keyword : String) :
    Table.find? ⟨gs, h⟩ keyword = gs.lookup keyword := by
  show (gs.find? fun g => compare g.1 keyword == .eq).map (·.2) = _
  clear h
  induction gs with
  | nil => rfl
  | cons g gs ih =>
    have hiff : keyword = g.1 ↔ compare g.1 keyword = .eq :=
      eq_comm.trans Std.LawfulEqCmp.compare_eq_iff_eq.symm
    rw [List.find?_cons, lookup_cons_eq_ite]
    by_cases h : keyword = g.1
    · rw [if_pos h, hiff.1 h]
      rfl
    · rw [if_neg h, beq_eq_false_iff_ne.2 (mt hiff.2 h)]
      exact ih

/-- Ascending groups are determined by what is found under each keyword. -/
lemma eq_of_lookup (hgs : IsAscending gs) (hhs : IsAscending hs)
    (h : ∀ keyword, gs.lookup keyword = hs.lookup keyword) : gs = hs := by
  have hsame : Table.Same ⟨gs, hgs⟩ ⟨hs, hhs⟩ := Table.same_of_find? fun keyword => by
    rw [hgs.find?_eq_lookup, hhs.find?_eq_lookup, h]
  have heq : List.Forall₂ Eq gs hs := hsame.imp fun g g' hg =>
    Prod.ext (Std.LawfulEqCmp.eq_of_compare hg.1) hg.2
  rwa [List.forall₂_eq_eq_eq] at heq

end IsAscending

/-! ## Shapes -/

/-- A keyword that lies above all others is put behind them. -/
lemma Shape.insertKeyword_eq_append {keyword : String} {size : Nat} {ks : List (String × Nat)}
    (h : ∀ k ∈ ks, compare k.1 keyword = .lt) :
    insertKeyword keyword size ks = ks ++ [(keyword, size)] := by
  induction ks with
  | nil => rfl
  | cons k ks ih =>
    rw [List.forall_mem_cons] at h
    unfold insertKeyword
    rw [Std.OrientedCmp.gt_of_lt h.1, ih h.2]
    rfl

/-- A shape that is made of ascending keywords lists them as they are. -/
lemma Shape.keywords_ofKeywords {name : String} {positional : Nat} {ks : List (String × Nat)}
    (h : IsAscending ks) : (ofKeywords name positional ks).keywords = ks := by
  have hfold (done : List (String × Nat)) (hdone : IsAscending (done ++ ks)) :
      ks.foldl (fun ks k => insertKeyword k.1 k.2 ks) done = done ++ ks := by
    induction ks generalizing done with
    | nil => exact (List.append_nil done).symm
    | cons k ks ih =>
      have hlt : ∀ k' ∈ done, compare k'.1 k.1 = .lt := fun k' hk' =>
        (List.pairwise_append.1 hdone).2.2 k' hk' k List.mem_cons_self
      rw [List.append_cons] at hdone ⊢
      rw [List.foldl_cons, insertKeyword_eq_append hlt]
      exact ih (List.pairwise_append.1 hdone).2.1 _ hdone
  exact hfold [] h

namespace Slots

/-! ## Layouts made of groups -/

/-- Under the keyword of a new group that group is found, and otherwise what was found before. -/
lemma lookup_insertGroup (keyword : String) (items : List α) (gs : List (String × List α))
    (k : String) : (insertGroup keyword items gs).lookup k =
      if k = keyword then some items else gs.lookup k := by
  induction gs with
  | nil => exact lookup_cons_eq_ite k (keyword, items) []
  | cons g gs ih =>
    obtain ⟨l, xs⟩ := g
    unfold insertGroup
    split
    · exact lookup_cons_eq_ite k (keyword, items) _
    · next heq =>
      obtain rfl := Std.LawfulEqCmp.eq_of_compare heq
      rw [lookup_cons_eq_ite, lookup_cons_eq_ite]
      split <;> rfl
    · next hgt =>
      have hne : l ≠ keyword := by
        rintro rfl
        have hself : compare l l = .eq := Std.ReflCmp.compare_self
        cases hgt.symm.trans hself
      rw [lookup_cons_eq_ite, lookup_cons_eq_ite, ih]
      by_cases h : k = l
      · rw [if_pos h, if_pos h, if_neg (h ▸ hne)]
      · rw [if_neg h, if_neg h]

/-- The keywords with a new group are those that were there and that of the group. -/
lemma mem_insertGroup {keyword : String} {items : List α} {gs : List (String × List α)}
    {g : String × List α} (h : g ∈ insertGroup keyword items gs) : g = (keyword, items) ∨ g ∈ gs := by
  induction gs with
  | nil => exact .inl (List.mem_singleton.1 h)
  | cons g' gs ih =>
    unfold insertGroup at h
    split at h <;> simp only [List.mem_cons] at h ⊢ <;> tauto

/-- A new group is put in its place. -/
lemma isAscending_insertGroup (keyword : String) (items : List α) {gs : List (String × List α)}
    (h : IsAscending gs) : IsAscending (insertGroup keyword items gs) := by
  induction gs with
  | nil => exact List.pairwise_singleton ..
  | cons g gs ih =>
    obtain ⟨hg, hgs⟩ := List.pairwise_cons.1 h
    unfold insertGroup
    split
    · next hlt =>
      refine List.pairwise_cons.2 ⟨List.forall_mem_cons.2 ⟨hlt, fun g' hg' => ?_⟩, h⟩
      exact Std.TransCmp.lt_trans hlt (hg g' hg')
    · next heq =>
      refine List.pairwise_cons.2 ⟨fun g' hg' => ?_, hgs⟩
      exact Std.TransCmp.lt_of_eq_of_lt heq (hg g' hg')
    · next hgt =>
      refine List.pairwise_cons.2 ⟨fun g' hg' => ?_, ih hgs⟩
      rcases mem_insertGroup hg' with rfl | hg'
      · exact Std.OrientedCmp.lt_of_gt hgt
      · exact hg g' hg'

section OfGroups

variable (items : List α) (groups : List (String × List α))

/-- The items by position are those that a layout was made of. -/
@[simp] lemma positional_ofGroups : (ofGroups items groups).positional = items := by
  have hfold (s : Slots α) :
      (groups.foldl (fun s g => s.withKeyword g.1 g.2) s).positional = s.positional := by
    induction groups generalizing s with
    | nil => rfl
    | cons g groups ih => exact ih _
  exact hfold _

/-- The groups of a layout are in the order of their keywords. -/
lemma isAscending_ofGroups : IsAscending (ofGroups items groups).keywords := by
  have hfold (s : Slots α) (hs : IsAscending s.keywords) :
      IsAscending (groups.foldl (fun s g => s.withKeyword g.1 g.2) s).keywords := by
    induction groups generalizing s with
    | nil => exact hs
    | cons g groups ih => exact ih _ (isAscending_insertGroup g.1 g.2 hs)
  exact hfold _ .nil

/-- The group under a keyword is the last one that was added under it. -/
theorem group?_ofGroups (keyword : String) :
    (ofGroups items groups).group? keyword = groups.reverse.lookup keyword := by
  have hfold (s : Slots α) : (groups.foldl (fun s g => s.withKeyword g.1 g.2) s).group? keyword =
      (groups.reverse.lookup keyword).or (s.group? keyword) := by
    induction groups generalizing s with
    | nil => rfl
    | cons g groups ih =>
      have hadd : (s.withKeyword g.1 g.2).group? keyword =
          (List.lookup keyword [g]).or (s.group? keyword) := by
        refine (lookup_insertGroup g.1 g.2 s.keywords keyword).trans ?_
        rw [lookup_cons_eq_ite]
        split <;> rfl
      rw [List.foldl_cons, ih, hadd, List.reverse_cons, List.lookup_append, Option.or_assoc]
  exact (hfold _).trans Option.or_none

end OfGroups

variable {s : Slots α} {t : Slots β}

/-- Layouts with the same items by position and under each keyword are the same. -/
lemma ext_of_group? {s s' : Slots α} (hs : IsAscending s.keywords) (hs' : IsAscending s'.keywords)
    (hpositional : s.positional = s'.positional) (hgroup : ∀ keyword, s.group? keyword = s'.group? keyword) :
    s = s' := by
  obtain ⟨positional, keywords⟩ := s
  obtain ⟨positional', keywords'⟩ := s'
  exact congrArg₂ mk hpositional (hs.eq_of_lookup hs' hgroup)

/-- Groups with different keywords may be added in any order. -/
lemma ofGroups_perm (items : List α) {groups groups' : List (String × List α)}
    (hnodup : (groups.map (·.1)).Nodup) (h : groups.Perm groups') :
    ofGroups items groups = ofGroups items groups' := by
  have hreverse {gs : List (String × List α)} (hgs : (gs.map (·.1)).Nodup) :
      (gs.reverse.map (·.1)).Nodup := ((gs.reverse_perm.map _).nodup_iff).2 hgs
  refine ext_of_group? (isAscending_ofGroups ..) (isAscending_ofGroups ..) (by simp) fun keyword => ?_
  rw [group?_ofGroups, group?_ofGroups]
  refine Option.ext fun xs => ?_
  rw [lookup_eq_some_iff_mem (hreverse hnodup),
    lookup_eq_some_iff_mem (hreverse (((h.map _).nodup_iff).1 hnodup)), List.mem_reverse,
    List.mem_reverse, h.mem_iff]

/-! ## The shape of a layout -/

/-- A shape lists the sizes of the groups in the order of their keywords. -/
theorem keywords_shape (hs : IsAscending s.keywords) (name : String) :
    (s.shape name).keywords = s.keywords.map fun g => (g.1, g.2.length) :=
  Shape.keywords_ofKeywords (hs.map List.length)

/-- Layouts have the same shape exactly if they have as many items by position, and groups of the same
sizes under the same keywords. -/
theorem shape_eq_iff (hs : IsAscending s.keywords) (ht : IsAscending t.keywords) (name : String) :
    s.shape name = t.shape name ↔ s.positional.length = t.positional.length ∧
      ∀ keyword, (s.group? keyword).map List.length = (t.group? keyword).map List.length := by
  have hlookup {γ : Type} (u : Slots γ) (keyword : String) :
      (u.group? keyword).map List.length =
        (u.keywords.map fun g => (g.1, g.2.length)).lookup keyword :=
    (lookup_map List.length u.keywords keyword).symm
  simp only [hlookup]
  constructor
  · intro h
    refine ⟨congrArg (·.positional) h, fun keyword => ?_⟩
    rw [← keywords_shape hs name, ← keywords_shape ht name, h]
  · rintro ⟨hpositional, hkeywords⟩
    have heq := (hs.map List.length).eq_of_lookup (ht.map List.length) hkeywords
    exact congrArg₂ (Shape.ofKeywords name) hpositional heq

/-! ## Layouts paired place by place -/

/-- Items of the first layout are paired in their order, and none twice, whatever the second one is. -/
lemma map_fst_zip_sublist (s : Slots α) (t : Slots β) : ((s.zip t).map (·.1)).Sublist s.items := by
  have hlist (xs : List α) (ys : List β) : ((xs.zip ys).map (·.1)).Sublist xs := by
    rw [List.zip_eq_zip_take_min, List.map_fst_zip (by simp)]
    exact List.take_sublist _ _
  unfold zip items
  rw [List.map_append, List.map_flatMap]
  refine (hlist _ _).append (List.Sublist.flatMap_right _ fun g _ => ?_)
  split
  · exact hlist _ _
  · exact List.nil_sublist _

section Zip

variable {name : String} (hs : IsAscending s.keywords) (ht : IsAscending t.keywords)
  (h : s.shape name = t.shape name)

include hs ht h

/-- Under the keyword of a group, a layout of the same shape has a group of the same size. -/
lemma exists_group?_of_shape_eq {g : String × List α} (hg : g ∈ s.keywords) :
    ∃ ys, t.group? g.1 = some ys ∧ g.2.length = ys.length := by
  have hfound : s.group? g.1 = some g.2 := (lookup_eq_some_iff_mem hs.nodup).2 hg
  have hsize := ((shape_eq_iff hs ht name).1 h).2 g.1
  rw [hfound, Option.map_some, eq_comm, Option.map_eq_some_iff] at hsize
  obtain ⟨ys, hys, hlength⟩ := hsize
  exact ⟨ys, hys, hlength.symm⟩

/-- Every item of the first layout is paired, once and in its place. -/
theorem map_fst_zip : (s.zip t).map (·.1) = s.items := by
  have hpositional : s.positional.length = t.positional.length := congrArg (·.positional) h
  unfold zip items
  rw [List.map_append, List.map_flatMap]
  refine congrArg₂ (· ++ ·) (List.map_fst_zip (Nat.le_of_eq hpositional)) ?_
  refine List.flatMap_congr fun g hg => ?_
  obtain ⟨ys, hys, hlength⟩ := exists_group?_of_shape_eq hs ht h hg
  rw [hys]
  exact List.map_fst_zip (Nat.le_of_eq hlength)

/-- Every item of the second layout is paired, once and in its place. -/
theorem map_snd_zip : (s.zip t).map (·.2) = t.items := by
  have hpositional : s.positional.length = t.positional.length := congrArg (·.positional) h
  have hkeywords : s.keywords.map (·.1) = t.keywords.map (·.1) := by
    have hnames {γ : Type} {u : Slots γ} (hu : IsAscending u.keywords) :
        (u.shape name).keywords.map (·.1) = u.keywords.map (·.1) := by
      rw [keywords_shape hu, List.map_map]
      rfl
    rw [← hnames hs, h, hnames ht]
  have hgroups {γ : Type} (u : Slots γ) (f : String → List β) :
      u.keywords.flatMap (fun g => f g.1) = (u.keywords.map (·.1)).flatMap f := by
    rw [List.flatMap_map]
  unfold zip items
  rw [List.map_append, List.map_flatMap]
  refine congrArg₂ (· ++ ·) (List.map_snd_zip (Nat.le_of_eq hpositional.symm)) ?_
  calc s.keywords.flatMap _
      = s.keywords.flatMap fun g => (t.group? g.1).getD [] := by
        refine List.flatMap_congr fun g hg => ?_
        obtain ⟨ys, hys, hlength⟩ := exists_group?_of_shape_eq hs ht h hg
        rw [hys]
        exact List.map_snd_zip (Nat.le_of_eq hlength.symm)
    _ = t.keywords.flatMap fun g => (t.group? g.1).getD [] := by
        rw [hgroups s fun k => (t.group? k).getD [], hgroups t fun k => (t.group? k).getD [], hkeywords]
    _ = t.keywords.flatMap (·.2) := by
        refine List.flatMap_congr fun g hg => ?_
        have hfound : t.group? g.1 = some g.2 := (lookup_eq_some_iff_mem ht.nodup).2 hg
        rw [hfound]
        rfl

end Zip

end Slots

end DiceCalculus
