import DiceCalculus.Table
import Mathlib.Algebra.BigOperators.Group.List.Basic
import Mathlib.Data.List.Forall2

set_option autoImplicit false
set_option relaxedAutoImplicit false

/-!
# Sums over the entries of a table

Collecting entries by key neither loses nor repeats one. The statement is made through sums: a
quantity that is added up over the entries, and that does not tell equal keys apart, is the same
before the entries are collected and after.

## Main definitions

* `Table.IsKeyFunction`, `Table.IsKeyPredicate` — functions and predicates of an entry that do not
  tell equal keys apart.
* `Table.sumOver` — a quantity added up over the values of a collection.
* `Table.Holds` — a predicate that holds of every value of a collection, none of which is empty.

## Main results

* `Table.sum_map_aligned` — a sum over two tables side by side is the sum over both.
* `Table.gather_induction` — entries are collected by joining.
* `Table.sumOver_gather` — collecting entries by key changes no sum.
* `Table.holds_gather` — the values at a key come from entries with that key.
* `Table.sum_map_addAll`, `Table.forall_mem_addAll` — the same for entries added into a table.
* `Table.sum_ite_compare_eq` — at most one entry of a table has a given key.
-/

namespace DiceCalculus

namespace Table

variable {κ α β γ M : Type} [Ord κ]

/-- A function of an entry that does not tell equal keys apart. -/
def IsKeyFunction (F : κ → α → M) : Prop := ∀ k l a, compare k l = .eq → F k a = F l a

/-- A predicate on entries that does not tell equal keys apart. -/
def IsKeyPredicate (P : κ → α → Prop) : Prop := ∀ k l a, compare k l = .eq → P k a → P l a

/-! ## Two tables side by side -/

section Align

variable (both : α → β → γ) (left : α → γ) (right : β → γ)

/-- A sum over two lists of entries side by side is the sum over both, if the weight of a key of
both is the sum of its weights in each. -/
theorem sum_map_aligned [AddCommMonoid M] {L : κ × α → M} {R : κ × β → M} {B : κ × γ → M}
    (hleft : ∀ k a, B (k, left a) = L (k, a)) (hright : ∀ k b, B (k, right b) = R (k, b))
    (hboth : ∀ k l a b, compare k l = .eq → B (k, both a b) = L (k, a) + R (l, b))
    (as : List (κ × α)) (bs : List (κ × β)) :
    ((aligned both left right as bs).map B).sum = (as.map L).sum + (bs.map R).sum := by
  fun_induction aligned both left right as bs with
  | case1 bs =>
    have h : B ∘ (fun e : κ × β => (e.1, right e.2)) = R := funext fun e => hright e.1 e.2
    rw [List.map_map, h, List.map_nil, List.sum_nil, zero_add]
  | case2 as _ =>
    have h : B ∘ (fun e : κ × α => (e.1, left e.2)) = L := funext fun e => hleft e.1 e.2
    rw [List.map_map, h, List.map_nil, List.sum_nil, add_zero]
  | case3 k a as l b bs _ ih =>
    simp only [List.map_cons, List.sum_cons, ih, hleft, add_assoc]
  | case4 k a as l b bs h ih =>
    simp only [List.map_cons, List.sum_cons, ih, hboth k l a b h]
    exact add_add_add_comm _ _ _ _
  | case5 k a as l b bs _ ih =>
    simp only [List.map_cons, List.sum_cons, ih, hright]
    exact add_left_comm _ _ _

/-- What holds of the entries of two lists, alone and joined, holds of the entries side by side. -/
lemma forall_mem_aligned {Q : κ × γ → Prop} {as : List (κ × α)} {bs : List (κ × β)}
    (hleft : ∀ e ∈ as, Q (e.1, left e.2)) (hright : ∀ e ∈ bs, Q (e.1, right e.2))
    (hboth : ∀ a ∈ as, ∀ b ∈ bs, compare a.1 b.1 = .eq → Q (a.1, both a.2 b.2)) :
    ∀ e ∈ aligned both left right as bs, Q e := by
  fun_induction aligned both left right as bs with
  | case1 bs => exact List.forall_mem_map.2 hright
  | case2 as _ => exact List.forall_mem_map.2 hleft
  | case3 k a as l b bs _ ih =>
    rw [List.forall_mem_cons] at hleft
    refine List.forall_mem_cons.2 ⟨hleft.1, ih hleft.2 hright fun x hx => ?_⟩
    exact hboth x (List.mem_cons_of_mem _ hx)
  | case4 k a as l b bs h ih =>
    rw [List.forall_mem_cons] at hleft hright
    refine List.forall_mem_cons.2 ⟨?_, ih hleft.2 hright.2 fun x hx y hy => ?_⟩
    · exact hboth (k, a) List.mem_cons_self (l, b) List.mem_cons_self h
    · exact hboth x (List.mem_cons_of_mem _ hx) y (List.mem_cons_of_mem _ hy)
  | case5 k a as l b bs _ ih =>
    rw [List.forall_mem_cons] at hright
    refine List.forall_mem_cons.2 ⟨hright.1, ih hleft hright.2 fun x hx y hy => ?_⟩
    exact hboth x hx y (List.mem_cons_of_mem _ hy)

variable [Std.TransOrd κ]

/-- The entries of two tables side by side. -/
lemma entries_align (s : Table κ α) (t : Table κ β) :
    (align both left right s t).entries = aligned both left right s.entries t.entries := by
  show (alignOnto both left right s.entries t.entries []).reverse = _
  rw [alignOnto_eq, List.append_nil, List.reverse_reverse]

end Align

/-! ## How entries are collected -/

/-- Tables with the same entries are the same. -/
lemma eq_of_entries {t t' : Table κ α} (h : t.entries = t'.entries) : t = t' := by
  obtain ⟨es, hes⟩ := t
  obtain ⟨es', hes'⟩ := t'
  cases h
  rfl

section Induction

variable [Std.TransOrd κ]

/-- An entry is joined with the first run, or is a run of its own. -/
lemma pushRun_cons (k : κ) (a : α) (t : Table κ (List α)) (runs : List (Table κ (List α))) :
    pushRun k a (t :: runs) = join (single k [a]) t :: runs ∨
      pushRun k a (t :: runs) = single k [a] :: t :: runs := by
  have hjoin : (join (single k [a]) t).entries = aligned (· ++ ·) id id [(k, [a])] t.entries :=
    entries_align ..
  obtain ⟨_ | ⟨⟨l, as⟩, es⟩, h⟩ := t
  · refine .inl (congrArg (· :: runs) (eq_of_entries ?_))
    rw [hjoin]
    simp [single, aligned]
  · unfold pushRun
    dsimp only
    split
    · next hlt =>
      refine .inl (congrArg (· :: runs) (eq_of_entries ?_))
      rw [hjoin]
      simp [aligned, hlt]
    · next heq =>
      refine .inl (congrArg (· :: runs) (eq_of_entries ?_))
      rw [hjoin]
      simp [aligned, heq]
    · exact .inr rfl

variable {R : Table κ (List α) → List (κ × α) → Prop} (hempty : R empty [])
  (hsingle : ∀ k a, R (single k [a]) [(k, a)])
  (hjoin : ∀ s t es ds, R s es → R t ds → R (join s t) (es ++ ds))

include hsingle hjoin in
/-- The runs of a list of entries are made of its segments. -/
lemma exists_forall₂_ascendingRuns (es : List (κ × α)) :
    ∃ segments, List.Forall₂ R (ascendingRuns es) segments ∧ segments.flatten = es := by
  induction es with
  | nil => exact ⟨[], .nil, rfl⟩
  | cons e es ih =>
    obtain ⟨segments, hruns, hflatten⟩ := ih
    show ∃ segments', List.Forall₂ R (pushRun e.1 e.2 (ascendingRuns es)) segments' ∧ _
    generalize ascendingRuns es = runs at hruns ⊢
    subst hflatten
    cases hruns with
    | nil => exact ⟨[[e]], .cons (hsingle e.1 e.2) .nil, rfl⟩
    | @cons t ds runs segments ht hruns =>
      rcases pushRun_cons e.1 e.2 t runs with h | h
      · exact ⟨(e :: ds) :: segments, h ▸ .cons (hjoin _ _ _ _ (hsingle e.1 e.2) ht) hruns, rfl⟩
      · exact ⟨[e] :: ds :: segments, h ▸ .cons (hsingle e.1 e.2) (.cons ht hruns), rfl⟩

include hempty hjoin in
/-- Collections that are made of the segments of a list are joined to one that is made of the list. -/
lemma joinAll_induction (halvings : Nat) {ts : List (Table κ (List α))}
    {segments : List (List (κ × α))} (h : List.Forall₂ R ts segments) :
    R (joinAll halvings ts) segments.flatten := by
  induction halvings generalizing ts segments with
  | zero =>
    have hfold (s : Table κ (List α)) (ds : List (κ × α)) (hs : R s ds) :
        R (ts.foldl join s) (ds ++ segments.flatten) := by
      induction h generalizing s ds with
      | nil => simpa using hs
      | cons ht _ ih =>
        rw [List.flatten_cons, ← List.append_assoc]
        exact ih _ _ (hjoin _ _ _ _ hs ht)
    exact hfold _ [] hempty
  | succ halvings ih =>
    have hhalves := hjoin _ _ _ _ (ih (List.forall₂_take (ts.length / 2) h))
      (ih (List.forall₂_drop (ts.length / 2) h))
    rwa [← List.flatten_append, List.take_append_drop] at hhalves

include hempty hsingle hjoin in
/-- What holds of the empty collection and of each entry alone, and of two collections joined with the
entries of one before those of the other, holds of all entries collected by key. -/
theorem gather_induction (es : List (κ × α)) : R (gather es) es := by
  obtain ⟨segments, hruns, hsegments⟩ := exists_forall₂_ascendingRuns hsingle hjoin es
  have hgather := joinAll_induction hempty hjoin (ascendingRuns es).length.log2 hruns
  rwa [hsegments] at hgather

end Induction

/-! ## Collections -/

section Gather

/-- A quantity added up over the values of a collection. -/
def sumOver [AddCommMonoid M] (F : κ → α → M) (t : Table κ (List α)) : M :=
  (t.entries.map fun e => (e.2.map (F e.1)).sum).sum

/-- A predicate holds of every value of a collection, and no key is without values. -/
def Holds (P : κ → α → Prop) (t : Table κ (List α)) : Prop :=
  ∀ e ∈ t.entries, e.2 ≠ [] ∧ ∀ a ∈ e.2, P e.1 a

variable [Std.TransOrd κ] [AddCommMonoid M] {F : κ → α → M} {P : κ → α → Prop}

/-- Joining two collections adds their sums. -/
lemma sumOver_join (hF : IsKeyFunction F) (s t : Table κ (List α)) :
    sumOver F (join s t) = sumOver F s + sumOver F t := by
  unfold sumOver join
  rw [entries_align]
  refine sum_map_aligned _ _ _ (fun _ _ => rfl) (fun _ _ => rfl) ?_ _ _
  intro k l as bs h
  have hkl : bs.map (F k) = bs.map (F l) := List.map_congr_left fun b _ => hF k l b h
  simp only [List.map_append, List.sum_append, hkl]

/-- Joining two collections keeps a predicate. -/
lemma holds_join (hP : IsKeyPredicate P) {s t : Table κ (List α)} (hs : Holds P s)
    (ht : Holds P t) : Holds P (join s t) := by
  unfold Holds join
  rw [entries_align]
  refine forall_mem_aligned _ _ _ hs ht fun a ha b hb h => ?_
  refine ⟨by simp [(hs a ha).1], fun x hx => ?_⟩
  rcases List.mem_append.1 hx with hx | hx
  · exact (hs a ha).2 x hx
  · exact hP b.1 a.1 x (Std.OrientedCmp.eq_symm h) ((ht b hb).2 x hx)

/-- Collecting entries by key changes no sum. -/
theorem sumOver_gather (hF : IsKeyFunction F) (es : List (κ × α)) :
    sumOver F (gather es) = (es.map fun e => F e.1 e.2).sum := by
  refine gather_induction (R := fun t es => sumOver F t = (es.map fun e => F e.1 e.2).sum) rfl
    (fun k a => by simp [sumOver, single]) (fun s t es ds hs ht => ?_) es
  rw [sumOver_join hF, hs, ht, List.map_append, List.sum_append]

omit [AddCommMonoid M] in
/-- The values at a key come from entries with that key. -/
theorem holds_gather (hP : IsKeyPredicate P) {es : List (κ × α)} (hes : ∀ e ∈ es, P e.1 e.2) :
    Holds P (gather es) := by
  refine gather_induction (R := fun t es => (∀ e ∈ es, P e.1 e.2) → Holds P t)
    (fun _ _ => nofun) (fun k a ha => by simpa [Holds, single] using ha)
    (fun s t es ds hs ht hall => ?_) es hes
  rw [List.forall_mem_append] at hall
  exact holds_join hP (hs hall.1) (ht hall.2)

/-- One entry alone is collected under its key. -/
lemma entries_gather_singleton (k : κ) (a : α) : (gather [(k, a)]).entries = [(k, [a])] := by
  have hlog : [single k [a]].length.log2 = 0 := by simp [Nat.log2_def]
  show (joinAll [single k [a]].length.log2 [single k [a]]).entries = _
  rw [hlog]
  show (join empty (single k [a])).entries = _
  unfold join
  rw [entries_align]
  simp [empty, single, aligned]

end Gather

/-! ## Adding entries into a table -/

section Add

variable [Std.TransOrd κ] [AddCommMonoid α] {P : κ → α → Prop}

/-- Adding values from the left onto a value adds their sum to it. -/
lemma foldl_add_eq (a : α) (as : List α) : as.foldl (· + ·) a = a + as.sum := by
  induction as generalizing a with
  | nil => simp
  | cons b as ih => rw [List.foldl_cons, ih, List.sum_cons, add_assoc]

/-- Adding entries into a table adds their weights to its own. -/
theorem sum_map_addAll [AddCommMonoid M] (F : κ → α →+ M)
    (hF : ∀ k l, compare k l = .eq → F k = F l) (t : Table κ α) (es : List (κ × α)) :
    ((t.addAll es).entries.map fun e => F e.1 e.2).sum =
      (t.entries.map fun e => F e.1 e.2).sum + (es.map fun e => F e.1 e.2).sum := by
  have hkey : IsKeyFunction fun k a => F k a := fun k l a h => DFunLike.congr_fun (hF k l h) a
  rw [← sumOver_gather hkey es]
  unfold sumOver addAll
  rw [entries_align]
  refine sum_map_aligned _ _ _ (fun _ _ => rfl) (fun k as => ?_) (fun k l a as h => ?_) _ _
  · rw [foldl_add_eq, zero_add, map_list_sum]
  · rw [foldl_add_eq, map_add, map_list_sum, hF k l h]

/-- What holds of all entries of a table and of a list, and passes on to sums, holds of the entries
of the table with those of the list added. -/
theorem forall_mem_addAll (hP : IsKeyPredicate P) (hadd : ∀ k a b, P k a → P k b → P k (a + b))
    {t : Table κ α} {es : List (κ × α)} (ht : ∀ e ∈ t.entries, P e.1 e.2)
    (hes : ∀ e ∈ es, P e.1 e.2) : ∀ e ∈ (t.addAll es).entries, P e.1 e.2 := by
  have hfold : ∀ k a (as : List α), P k a → (∀ b ∈ as, P k b) → P k (as.foldl (· + ·) a) := by
    intro k a as ha has
    induction as generalizing a with
    | nil => exact ha
    | cons b as ih =>
      rw [List.forall_mem_cons] at has
      exact ih (a + b) (hadd k a b ha has.1) has.2
  have hgather := holds_gather hP hes
  unfold addAll
  rw [entries_align]
  refine forall_mem_aligned _ _ _ ht (fun e he => ?_) fun a ha b hb h => ?_
  · obtain ⟨hne, hall⟩ := hgather e he
    obtain ⟨a, as, has⟩ := List.exists_cons_of_ne_nil hne
    simp only [has, List.foldl_cons, zero_add] at hall ⊢
    rw [List.forall_mem_cons] at hall
    exact hfold _ _ _ hall.1 hall.2
  · exact hfold _ _ _ (ht a ha) fun x hx =>
      hP b.1 a.1 x (Std.OrientedCmp.eq_symm h) ((hgather b hb).2 x hx)

end Add

/-- The table of one entry has that entry, its value added to zero. -/
lemma entries_ofEntries_singleton [Std.TransOrd κ] [Zero α] [Add α] (k : κ) (a : α) :
    (ofEntries [(k, a)]).entries = [(k, 0 + a)] := by
  unfold ofEntries addAll
  rw [entries_align, entries_gather_singleton]
  simp [empty, aligned]

/-! ## Looking up a key -/

/-- At most one entry of a table has a given key, so the values at the key add up to the one that
is found. -/
theorem sum_ite_compare_eq [Std.TransOrd κ] [AddCommMonoid M] (t : Table κ M) (k : κ) :
    (t.entries.map fun e => if compare e.1 k = .eq then e.2 else 0).sum = (t.find? k).getD 0 := by
  obtain ⟨es, hes⟩ := t
  unfold find?
  induction es with
  | nil => rfl
  | cons e es ih =>
    obtain ⟨he, hes⟩ := List.pairwise_cons.1 hes
    rw [List.map_cons, List.sum_cons, List.find?_cons]
    by_cases h : compare e.1 k = .eq
    · -- every later key lies above this one, hence above `k`
      have hrest : (es.map fun e => if compare e.1 k = .eq then e.2 else 0).sum = 0 := by
        refine List.sum_eq_zero fun x hx => ?_
        obtain ⟨e', he', rfl⟩ := List.mem_map.1 hx
        have hlt : compare k e'.1 = .lt :=
          Std.TransCmp.lt_of_eq_of_lt (Std.OrientedCmp.eq_symm h) (he e' he')
        rw [if_neg]
        rw [Std.OrientedCmp.gt_of_lt hlt]
        decide
      simp [h, hrest]
    · have hne : (compare e.1 k == .eq) = false := beq_false_of_ne h
      rw [if_neg h, zero_add, hne, ih hes]

end Table

end DiceCalculus
