set_option autoImplicit false
set_option relaxedAutoImplicit false

/-!
# Ordered tables

A table gives a value to finitely many keys and lists its keys in ascending order. Keys that
compare equal are one key, written as it was first.

## Main definitions

* `Table` — a list of keys and values whose keys ascend strictly.
* `Table.find?` — the value at a key.
* `Table.align` — two tables side by side, with one entry for each key of either.
* `Table.gather` — the values of a list of entries collected by key, in the order of the list.
* `Table.addAll` — the values of a list of entries added into a table.

## Main results

* `Table.alignOnto_eq` — the loop behind `Table.align` computes the list `Table.aligned`.
* `Table.pairwise_aligned` — aligning keeps the order of the keys.

## Implementation notes

`Table.gather` cuts the entries into ascending runs and aligns neighbouring runs pairwise, so
that entries that are nearly in order, as those of a product of tables are, cost little more than
one pass. Values at one key are kept as a list until the end and only then added, from the left:
no addition is ever reassociated.
-/

namespace DiceCalculus

/-- A list of entries whose keys ascend strictly. -/
structure Table (κ α : Type) [Ord κ] where
  /-- The keys with their values, in ascending order of the keys. -/
  entries : List (κ × α)
  /-- No key is repeated, and none is out of order. -/
  ordered : entries.Pairwise fun a b => compare a.1 b.1 = .lt

namespace Table

variable {κ α β γ : Type} [Ord κ]

/-- The table without keys. -/
def empty : Table κ α := ⟨[], .nil⟩

instance : Inhabited (Table κ α) := ⟨empty⟩

/-- The table with one key. -/
def single (k : κ) (a : α) : Table κ α := ⟨[(k, a)], List.pairwise_singleton ..⟩

/-- The number of keys. -/
def size (t : Table κ α) : Nat := t.entries.length

/-- Whether there is no key. -/
def isEmpty (t : Table κ α) : Bool := t.entries.isEmpty

/-- The keys in ascending order. -/
def keys (t : Table κ α) : List κ := t.entries.map (·.1)

/-- The values in the order of their keys. -/
def values (t : Table κ α) : List α := t.entries.map (·.2)

/-- The value at a key, in whichever form the key is written. -/
def find? (t : Table κ α) (k : κ) : Option α :=
  (t.entries.find? fun e => compare e.1 k == .eq).map (·.2)

/-! ## Two tables side by side -/

section Align

variable (both : α → β → γ) (left : α → γ) (right : β → γ)

/-- Two lists of entries side by side. A key of both is written as in the first. -/
def aligned : List (κ × α) → List (κ × β) → List (κ × γ)
  | [], bs => bs.map fun e => (e.1, right e.2)
  | as, [] => as.map fun e => (e.1, left e.2)
  | (k, a) :: as, (l, b) :: bs =>
    match compare k l with
    | .lt => (k, left a) :: aligned as ((l, b) :: bs)
    | .eq => (k, both a b) :: aligned as bs
    | .gt => (l, right b) :: aligned ((k, a) :: as) bs
termination_by as bs => as.length + bs.length

/-- Puts two lists of entries side by side, greatest key first, in front of a list. -/
def alignOnto : List (κ × α) → List (κ × β) → List (κ × γ) → List (κ × γ)
  | [], bs, done => bs.foldl (fun done e => (e.1, right e.2) :: done) done
  | as, [], done => as.foldl (fun done e => (e.1, left e.2) :: done) done
  | (k, a) :: as, (l, b) :: bs, done =>
    match compare k l with
    | .lt => alignOnto as ((l, b) :: bs) ((k, left a) :: done)
    | .eq => alignOnto as bs ((k, both a b) :: done)
    | .gt => alignOnto ((k, a) :: as) bs ((l, right b) :: done)
termination_by as bs => as.length + bs.length

/-- Pushing the images of a list in front of another reverses them. -/
theorem foldl_cons_map {δ ε : Type} (f : δ → ε) (xs : List δ) (done : List ε) :
    xs.foldl (fun done x => f x :: done) done = (xs.map f).reverse ++ done := by
  induction xs generalizing done with
  | nil => rfl
  | cons x xs ih => simp [ih]

/-- The loop computes the aligned list in reverse. -/
theorem alignOnto_eq (as : List (κ × α)) (bs : List (κ × β)) (done : List (κ × γ)) :
    alignOnto both left right as bs done = (aligned both left right as bs).reverse ++ done := by
  fun_induction aligned both left right as bs generalizing done with
  | case1 bs => rw [alignOnto, foldl_cons_map]
  | case2 as h =>
    cases as with
    | nil => exact absurd rfl h
    | cons a as => rw [alignOnto, foldl_cons_map]; simp
  | case3 k a as l b bs h ih => rw [alignOnto, h, ih]; simp
  | case4 k a as l b bs h ih => rw [alignOnto, h, ih]; simp
  | case5 k a as l b bs h ih => rw [alignOnto, h, ih]; simp

/-- A key of the aligned list is a key of one of the two. -/
theorem mem_aligned {as : List (κ × α)} {bs : List (κ × β)} {e : κ × γ}
    (h : e ∈ aligned both left right as bs) :
    (∃ a ∈ as, a.1 = e.1) ∨ ∃ b ∈ bs, b.1 = e.1 := by
  fun_induction aligned both left right as bs with
  | case1 bs =>
    obtain ⟨b, hb, rfl⟩ := List.mem_map.1 h
    exact .inr ⟨b, hb, rfl⟩
  | case2 as _ =>
    obtain ⟨a, ha, rfl⟩ := List.mem_map.1 h
    exact .inl ⟨a, ha, rfl⟩
  | case3 k a as l b bs _ ih =>
    rcases List.mem_cons.1 h with rfl | h
    · exact .inl ⟨(k, a), by simp, rfl⟩
    · exact (ih h).imp_left fun ⟨x, hx, hk⟩ => ⟨x, List.mem_cons_of_mem _ hx, hk⟩
  | case4 k a as l b bs _ ih =>
    rcases List.mem_cons.1 h with rfl | h
    · exact .inl ⟨(k, a), by simp, rfl⟩
    · exact (ih h).imp (fun ⟨x, hx, hk⟩ => ⟨x, List.mem_cons_of_mem _ hx, hk⟩)
        fun ⟨x, hx, hk⟩ => ⟨x, List.mem_cons_of_mem _ hx, hk⟩
  | case5 k a as l b bs _ ih =>
    rcases List.mem_cons.1 h with rfl | h
    · exact .inr ⟨(l, b), by simp, rfl⟩
    · exact (ih h).imp_right fun ⟨x, hx, hk⟩ => ⟨x, List.mem_cons_of_mem _ hx, hk⟩

variable [Std.TransOrd κ]

/-- Aligning keeps the order of the keys.

**Proof sketch.** The head of the aligned list is the smaller of the two heads. Every later key
belongs to one of the lists (`mem_aligned`) and lies above the head of that list, hence above the
smaller head. -/
theorem pairwise_aligned {as : List (κ × α)} {bs : List (κ × β)}
    (ha : as.Pairwise fun a b => compare a.1 b.1 = .lt)
    (hb : bs.Pairwise fun a b => compare a.1 b.1 = .lt) :
    (aligned both left right as bs).Pairwise fun a b => compare a.1 b.1 = .lt := by
  fun_induction aligned both left right as bs with
  | case1 bs => exact List.pairwise_map.2 hb
  | case2 as _ => exact List.pairwise_map.2 ha
  | case3 k a as l b bs h ih =>
    have ⟨hka, ha'⟩ := List.pairwise_cons.1 ha
    have ⟨hlb, _⟩ := List.pairwise_cons.1 hb
    refine List.pairwise_cons.2 ⟨fun e he => ?_, ih ha' hb⟩
    rcases mem_aligned both left right he with ⟨x, hx, hk⟩ | ⟨x, hx, hk⟩
    · exact hk ▸ hka x hx
    · rcases List.mem_cons.1 hx with rfl | hx
      · exact hk ▸ h
      · exact hk ▸ Std.TransCmp.lt_trans h (hlb x hx)
  | case4 k a as l b bs h ih =>
    have ⟨hka, ha'⟩ := List.pairwise_cons.1 ha
    have ⟨hlb, hb'⟩ := List.pairwise_cons.1 hb
    refine List.pairwise_cons.2 ⟨fun e he => ?_, ih ha' hb'⟩
    rcases mem_aligned both left right he with ⟨x, hx, hk⟩ | ⟨x, hx, hk⟩
    · exact hk ▸ hka x hx
    · exact hk ▸ Std.TransCmp.lt_of_eq_of_lt h (hlb x hx)
  | case5 k a as l b bs h ih =>
    have ⟨hka, _⟩ := List.pairwise_cons.1 ha
    have ⟨hlb, hb'⟩ := List.pairwise_cons.1 hb
    have hlk : compare l k = .lt := Std.OrientedCmp.lt_of_gt h
    refine List.pairwise_cons.2 ⟨fun e he => ?_, ih ha hb'⟩
    rcases mem_aligned both left right he with ⟨x, hx, hk⟩ | ⟨x, hx, hk⟩
    · rcases List.mem_cons.1 hx with rfl | hx
      · exact hk ▸ hlk
      · exact hk ▸ Std.TransCmp.lt_trans hlk (hka x hx)
    · exact hk ▸ hlb x hx

/-- Two tables side by side: a key of both has the value `both a b`, a key of one of them the
value `left a` or `right b`. -/
def align (s : Table κ α) (t : Table κ β) : Table κ γ where
  entries := (alignOnto both left right s.entries t.entries []).reverse
  ordered := by
    rw [alignOnto_eq, List.append_nil, List.reverse_reverse]
    exact pairwise_aligned both left right s.ordered t.ordered

end Align

/-! ## Collecting entries by key -/

variable [Std.TransOrd κ]

/-- Two collections by key, the values of the first before those of the second. -/
def join : Table κ (List α) → Table κ (List α) → Table κ (List α) :=
  align (· ++ ·) id id

/-- Puts an entry in front of a list of runs: into the first run if its key is not above the
keys of that run, into a run of its own otherwise. -/
def pushRun (k : κ) (a : α) : List (Table κ (List α)) → List (Table κ (List α))
  | [] => [single k [a]]
  | ⟨[], _⟩ :: runs => single k [a] :: runs
  | ⟨(l, as) :: rest, h⟩ :: runs =>
    match hkl : compare k l with
    | .lt =>
      have ordered := List.pairwise_cons.2 ⟨fun e he => by
        rcases List.mem_cons.1 he with rfl | he
        · exact hkl
        · exact Std.TransCmp.lt_trans hkl ((List.pairwise_cons.1 h).1 e he), h⟩
      ⟨(k, [a]) :: (l, as) :: rest, ordered⟩ :: runs
    | .eq =>
      have ordered := List.pairwise_cons.2 ⟨fun e he =>
        Std.TransCmp.lt_of_eq_of_lt hkl ((List.pairwise_cons.1 h).1 e he),
        (List.pairwise_cons.1 h).2⟩
      ⟨(k, a :: as) :: rest, ordered⟩ :: runs
    | .gt => single k [a] :: ⟨(l, as) :: rest, h⟩ :: runs

/-- The ascending runs of a list of entries. -/
def ascendingRuns (es : List (κ × α)) : List (Table κ (List α)) :=
  es.foldr (fun e runs => pushRun e.1 e.2 runs) []

/-- Joins a list of collections in order, halving the list a given number of times first. -/
def joinAll : Nat → List (Table κ (List α)) → Table κ (List α)
  | 0, ts => ts.foldl join empty
  | halvings + 1, ts =>
    join (joinAll halvings (ts.take (ts.length / 2))) (joinAll halvings (ts.drop (ts.length / 2)))

/-- The values of a list of entries collected by key, each key written as it is first. -/
def gather (es : List (κ × α)) : Table κ (List α) :=
  let runs := ascendingRuns es
  joinAll runs.length.log2 runs

/-- Adds the values of a list of entries into a table, one after the other. A key of the table
keeps its form; a new key starts from zero and is written as it is first. -/
def addAll [Zero α] [Add α] (t : Table κ α) (es : List (κ × α)) : Table κ α :=
  align (fun a as => as.foldl (· + ·) a) id (fun as => as.foldl (· + ·) 0) t (gather es)

/-- The table of a list of entries: the values at one key are added from the left onto zero. -/
def ofEntries [Zero α] [Add α] (es : List (κ × α)) : Table κ α := empty.addAll es

end Table

end DiceCalculus
