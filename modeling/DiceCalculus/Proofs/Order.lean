import DiceCalculus.Operator
import DiceCalculus.Proofs.Binary64.Order
import DiceCalculus.Proofs.Law.Integral
import DiceCalculus.Proofs.Table.Entries

set_option autoImplicit false
set_option relaxedAutoImplicit false

/-!
# The order of numbers, atoms and outcomes

Two integers are compared as integers, and every other pair of numbers as reals. This is one total order
nevertheless, since the integers keep their order as reals; the orders of atoms and of outcomes inherit it.
It is coarser than identity: an integer equals the double of its value, and the two zeros of the doubles
equal each other. Whatever reads numbers through their order only is well defined up to this equality.

## Main definitions

* `IsTotallyOrdered` — comparison is a total order, up to Boolean equality.
* `IsMaximum` — an operation gives the greater of two, up to equality.
* `Table.IsMap` — tables with such keys are maps.
* `Outcome.Precedes` — one outcome comes before another in lexicographic order.
* `Number.exactValue?` — the exact value of a number whose reals are doubles.

## Main results

* `Outcome.compare_lt_iff` — the order of outcomes is the lexicographic one.
* `Operator.existsUnique_holds` — exactly one of three comparisons holds.
* `Number.compare_eq_compare_exactValue` — numbers compare as their exact values do.
* `numbers_are_totally_ordered` — all of these together.

## Design

The numbers of a program have one *not a number*, above infinity. The order of all patterns of 64 bits,
`Binary64.rank`, puts a *not a number* by its sign, so that one with a sign comes below the negative
infinity. Which sign a *not a number* gets when it is computed is left to the platform; statements about
patterns therefore cover both signs, and statements about numbers the one without.
-/

namespace DiceCalculus

/-! ## Total orders up to equality -/

section Total

variable (α : Type) [Ord α]

/-- A type is totally ordered by its comparison, up to its Boolean equality. -/
structure IsTotallyOrdered [BEq α] : Prop where
  /-- Everything compares equal to itself. -/
  refl : ∀ a : α, compare a a = .eq
  /-- Two that are exchanged compare the other way round. -/
  swap : ∀ a b : α, compare b a = (compare a b).swap
  /-- What is at most a second, which is at most a third, is at most the third. -/
  trans : ∀ a b c : α, (compare a b).isLE → (compare b c).isLE → (compare a c).isLE
  /-- One of two is at most the other. -/
  total : ∀ a b : α, (compare a b).isLE ∨ (compare b a).isLE
  /-- Two of which each is at most the other are equal. -/
  antisymm : ∀ a b : α, (compare a b).isLE → (compare b a).isLE → a == b
  /-- Those that compare equal are equal, and no others. -/
  beq_iff : ∀ a b : α, a == b ↔ compare a b = .eq
  /-- Equality is an equivalence. -/
  equivalence : Equivalence fun a b : α => (a == b) = true
  /-- Equals compare alike. -/
  congr : ∀ a a' b b' : α, a == a' → b == b' → compare a b = compare a' b'

variable {α}

/-- An operation gives the greater of two, up to equality. -/
structure IsMaximum (max : α → α → α) : Prop where
  /-- The greater of two is one of them. -/
  choice : ∀ a b, max a b = a ∨ max a b = b
  /-- The greater of two is at most what both are at most. -/
  le_iff : ∀ a b c, (compare (max a b) c).isLE ↔ (compare a c).isLE ∧ (compare b c).isLE
  /-- The greater of two is equal to that of two equal ones. -/
  congr : ∀ a a' b b', compare a a' = .eq → compare b b' = .eq →
    compare (max a b) (max a' b') = .eq
  /-- The greatest of a list is equal in whichever order the list is written. -/
  perm : ∀ (a : α) (as bs : List α), as.Perm bs → compare (as.foldl max a) (bs.foldl max a) = .eq

variable [Std.TransOrd α]

/-- A type is totally ordered if comparison is transitive and equality is read off it. -/
lemma isTotallyOrdered_of_beq [BEq α] (h : ∀ a b : α, (a == b) = (compare a b == .eq)) :
    IsTotallyOrdered α := by
  have hbeq (a b : α) : a == b ↔ compare a b = .eq := by rw [h, beq_iff_eq]
  constructor
  case refl => exact fun a => Std.ReflCmp.compare_self
  case swap => exact fun a b => Std.OrientedCmp.eq_swap
  case trans => exact fun a b c => Std.TransCmp.isLE_trans
  case total =>
    intro a b
    have hswap : compare b a = (compare a b).swap := Std.OrientedCmp.eq_swap
    rw [hswap]
    cases compare a b <;> decide
  case antisymm =>
    exact fun a b hab hba => (hbeq a b).2 (Std.OrientedCmp.isLE_antisymm hab hba)
  case beq_iff => exact hbeq
  case equivalence =>
    refine ⟨fun a => (hbeq a a).2 Std.ReflCmp.compare_self, fun {a b} hab => ?_,
      fun {a b c} hab hbc => ?_⟩
    · exact (hbeq b a).2 (Std.OrientedCmp.eq_symm ((hbeq a b).1 hab))
    · exact (hbeq a c).2 (Std.TransCmp.eq_trans ((hbeq a b).1 hab) ((hbeq b c).1 hbc))
  case congr =>
    intro a a' b b' ha hb
    exact (Std.TransCmp.congr_left ((hbeq a a').1 ha)).trans
      (Std.TransCmp.congr_right ((hbeq b b').1 hb))

/-- Two that are at most the same are equal. -/
lemma compare_eq_of_isLE_iff {a b : α} (h : ∀ c, (compare a c).isLE ↔ (compare b c).isLE) :
    compare a b = .eq :=
  Std.OrientedCmp.isLE_antisymm ((h b).2 Std.ReflCmp.isLE_rfl) ((h a).1 Std.ReflCmp.isLE_rfl)

/-- The operation that gives the first of two if it is greater, and the second otherwise, is a maximum.

**Proof sketch.** What is at most a third determines anything up to equality, and the greatest of a list is
at most a third if all its members are, in whichever order. -/
lemma isMaximum_of_ite {max : α → α → α}
    (h : ∀ a b, max a b = if compare a b = .gt then a else b) : IsMaximum max := by
  have hle (a b c : α) : (compare (max a b) c).isLE ↔ (compare a c).isLE ∧ (compare b c).isLE := by
    rw [h]
    split
    · next hgt =>
      exact ⟨fun ha => ⟨ha, Std.TransCmp.isLE_trans (Ordering.isLE_of_eq_lt
        (Std.OrientedCmp.lt_of_gt hgt)) ha⟩, And.left⟩
    · next hngt =>
      exact ⟨fun hb => ⟨Std.TransCmp.isLE_trans (Ordering.isLE_iff_ne_gt.2 hngt) hb, hb⟩, And.right⟩
  have hfold (c : α) (as : List α) (a : α) :
      (compare (as.foldl max a) c).isLE ↔ (compare a c).isLE ∧ ∀ b ∈ as, (compare b c).isLE := by
    induction as generalizing a with
    | nil => simp
    | cons b as ih => rw [List.foldl_cons, ih, hle, List.forall_mem_cons, and_assoc]
  refine ⟨fun a b => ?_, hle, fun a a' b b' ha hb => compare_eq_of_isLE_iff fun c => ?_,
    fun a as bs hperm => compare_eq_of_isLE_iff fun c => ?_⟩
  · rw [h]
    split
    · exact .inl rfl
    · exact .inr rfl
  · rw [hle, hle, Std.TransCmp.congr_left ha, Std.TransCmp.congr_left hb]
  · simp only [hfold, hperm.mem_iff]

/-- Tables with keys of a type are maps from the keys, taken up to equality. -/
structure Table.IsMap (κ : Type) [Ord κ] [Std.TransOrd κ] : Prop where
  /-- A key has a value if an entry with an equal key has it. -/
  lookup : ∀ (β : Type) (t : Table κ β) (k : κ) (b : β),
    t.find? k = some b ↔ ∃ e ∈ t.entries, compare e.1 k = .eq ∧ e.2 = b
  /-- Equal keys have the same value in tables that are the same up to equality of keys. -/
  congr : ∀ (β : Type) (t t' : Table κ β) (k k' : κ), t.Same t' → compare k k' = .eq →
    t.find? k = t'.find? k'
  /-- Tables in which every key has the same value are the same up to equality of keys. -/
  ext : ∀ (β : Type) (t t' : Table κ β), (∀ k, t.find? k = t'.find? k) → t.Same t'
  /-- An entry that is added changes the value at the keys that are equal to its own, and no other. -/
  insert : ∀ (β : Type) [Zero β] [Add β] (t : Table κ β) (l : κ) (b : β) (k : κ),
    (t.addEntry (l, b)).find? k =
      if compare l k = .eq then some ((t.find? k).getD 0 + b) else t.find? k

end Total

/-- Tables with keys that are totally ordered are maps. -/
lemma Table.isMap (κ : Type) [Ord κ] [Std.TransOrd κ] : Table.IsMap κ := by
  refine ⟨fun β t k b => ⟨fun h => ?_, ?_⟩, fun β t t' k k' h hk => h.find? hk,
    fun β t t' => same_of_find?, fun β _ _ t l b k => find?_addEntry t (l, b) k⟩
  · obtain ⟨e, he, rfl⟩ := Option.map_eq_some_iff.1 h
    exact ⟨e, List.mem_of_find?_eq_some he,
      eq_of_beq (List.find?_some (p := fun e : κ × β => compare e.1 k == .eq) he), rfl⟩
  · rintro ⟨e, he, hk, rfl⟩
    rw [← (Table.Same.refl t).find? hk, find?_of_mem he]

variable {ρ : Type} [Scalar ρ]

/-! ## Lexicographic order -/

namespace Outcome

/-- An outcome comes before another in lexicographic order: up to some component they are equal, and
there either the first one ends, or its component is less than that of the other. -/
def Precedes (o p : Outcome ρ) : Prop :=
  ∃ n : Nat, (∀ i < n, ∃ a b, o.atoms[i]? = some a ∧ p.atoms[i]? = some b ∧ compare a b = .eq) ∧
    ∃ b, p.atoms[n]? = some b ∧ ∀ a, o.atoms[n]? = some a → compare a b = .lt

/-- Outcomes are ordered lexicographically.

**Proof sketch.** By induction over the atoms of the first outcome. A list that has ended precedes
one that has not. Otherwise the first atoms decide, at place zero, or they compare equal and the
place at which the rest is decided moves on by one. -/
theorem compare_lt_iff (o p : Outcome ρ) : compare o p = .lt ↔ o.Precedes p := by
  unfold Precedes
  show List.compareLex compare o.atoms p.atoms = .lt ↔ _
  generalize o.atoms = as, p.atoms = bs
  induction as generalizing bs with
  | nil =>
    cases bs with
    | nil => simp [List.compareLex]
    | cons b bs =>
      simp only [List.compareLex, true_iff]
      exact ⟨0, nofun, b, rfl, nofun⟩
  | cons a as ih =>
    cases bs with
    | nil => simp [List.compareLex]
    | cons b bs =>
      rw [List.compareLex_cons_cons, Ordering.then_eq_lt, ih]
      constructor
      · rintro (hlt | ⟨heq, n, hbefore, hat⟩)
        · exact ⟨0, nofun, b, rfl, fun c hc => by cases hc; exact hlt⟩
        · refine ⟨n + 1, fun i hi => ?_, hat⟩
          cases i with
          | zero => exact ⟨a, b, rfl, rfl, heq⟩
          | succ i => exact hbefore i (Nat.lt_of_succ_lt_succ hi)
      · rintro ⟨n, hbefore, c, hc, hless⟩
        cases n with
        | zero =>
          cases hc
          exact .inl (hless a rfl)
        | succ n =>
          obtain ⟨_, _, ⟨⟩, ⟨⟩, heq⟩ := hbefore 0 (Nat.zero_lt_succ n)
          exact .inr ⟨heq, n, fun i hi => hbefore (i + 1) (Nat.succ_lt_succ hi), c, hc, hless⟩

end Outcome

/-! ## Comparisons -/

namespace Operator

variable (x y : Number ρ)

omit [Scalar ρ] in
/-- The answer of a comparison that holds is not that of one that does not. -/
lemma ofBool_eq_one_iff (b : Bool) : some (Number.ofBool b : Number ρ) = some .one ↔ b = true := by
  cases b with
  | false => exact ⟨fun h => (nomatch Number.int.inj (Option.some.inj h)), nofun⟩
  | true => exact ⟨fun _ => rfl, fun _ => rfl⟩

/-- The comparison that holds of two numbers that compare in some way. -/
def holding : Ordering → Operator
  | .lt => lt
  | .eq => eq
  | .gt => gt

/-- Exactly one of three comparisons holds. -/
theorem existsUnique_holds : ∃! op, op ∈ [lt, eq, gt] ∧ op.value? x y = some .one := by
  have hvalue : ∀ op ∈ [lt, eq, gt], op.value? x y = some .one ↔ op = holding (compare x y) := by
    rw [List.forall_mem_cons, List.forall_mem_cons, List.forall_mem_singleton]
    simp only [value?, ofBool_eq_one_iff]
    cases compare x y <;> decide
  have hmem : holding (compare x y) ∈ [lt, eq, gt] := by cases compare x y <;> decide
  exact ⟨_, ⟨hmem, (hvalue _ hmem).2 rfl⟩, fun op h => (hvalue op h.1).1 h.2⟩

/-- The other three comparisons are the negations of these. -/
lemma negates : ∀ ops ∈ [(le, gt), (ge, lt), (ne, eq)],
    ∃ b, ops.2.value? x y = some (.ofBool b) ∧ ops.1.value? x y = some (.ofBool !b) := by
  simp only [List.forall_mem_cons, value?, Option.some.injEq]
  cases compare x y <;> simp

end Operator

/-! ## Numbers whose reals are doubles -/

namespace Number

/-- The exact value of a number, which is a rational or infinite, unless it is *not a number*. -/
def exactValue? : Number Float → Option (WithTop (WithBot ℚ))
  | .int i => some (Binary64.ofRat i.toInt)
  | .real x => Binary64.value? x.toBits

variable {x y : Number Float} {v w : WithTop (WithBot ℚ)}

/-- The exact value of a number is that of the double of its value. -/
lemma exactValue?_eq (x : Number Float) : x.exactValue? = Binary64.value? x.toReal.toBits := by
  cases x with
  | int i => exact (Binary64.value?_ofInt32 i).symm
  | real x => rfl

/-- Numbers compare as their exact values do. -/
theorem compare_eq_compare_exactValue (hx : x.exactValue? = some v) (hy : y.exactValue? = some w) :
    compare x y = compare v w := by
  rw [exactValue?_eq] at hx hy
  rw [compare_eq_cmp]
  exact Binary64.cmp_eq_compare_value hx hy

/-- What is *not a number* does not equal a number. -/
lemma compare_ne_eq_of_exactValue (hx : x.exactValue? = none) (hy : y.exactValue? = some w) :
    compare x y ≠ .eq := by
  rw [exactValue?_eq] at hx hy
  rw [compare_eq_cmp]
  have hrank := Binary64.rank_lt_of_nan hx hy
  intro h
  have heq := compare_eq_iff_eq.1 ((Binary64.cmp_eq_compare_rank _ _).symm.trans h)
  split at hrank <;> omega

/-- A number has a value unless it is *not a number*. -/
lemma exactValue?_eq_none_iff (x : Number Float) : x.exactValue? = none ↔ x = .real Binary64.nan := by
  cases x with
  | int i => exact ⟨nofun, nofun⟩
  | real x => exact (Binary64.value?_eq_none_iff x).trans (real.injEq x _).symm.to_iff

/-- A number equals the numbers of its value. -/
lemma beq_iff_exactValue_eq (hx : x.exactValue? = some v) : x == y ↔ y.exactValue? = some v := by
  show (compare x y == .eq) = true ↔ _
  rw [beq_iff_eq]
  cases hy : y.exactValue? with
  | none => exact ⟨fun h => absurd (Std.OrientedCmp.eq_symm h) (compare_ne_eq_of_exactValue hy hx), nofun⟩
  | some w =>
    rw [compare_eq_compare_exactValue hx hy, compare_eq_iff_eq, Option.some_inj, eq_comm]

end Number

/-- Numbers, atoms and outcomes are totally ordered, whatever the reals are. Integers are compared as
integers, and every two numbers compare as their values do among the reals; absent dice lie below all
numbers; outcomes are ordered lexicographically. Therefore exactly one of `<`, `==` and `>` holds of two
numbers, and `<=`, `>=` and `!=` are the negations of `>`, `<` and `==`; the greater of two numbers or
atoms is determined up to equality, as is the greatest of a list in any order; and tables with such keys
are maps.

If the reals are doubles, the order is that of the exact values. All patterns have ranks in one order, in
which only the two zeros fall together; patterns with a value lie as these do, and those of *not a number*
above or below all of them, as their sign says. A number therefore equals the integers and the doubles of
its value, and two doubles are equal only if they are the same or the two zeros.

**Proof sketch.** The order of numbers is that of their reals, and those of atoms and outcomes are
built from it lexicographically; each is a total preorder, and equality is defined by it, so that
maxima and tables follow. For doubles, the comparison is that of ranks of patterns, and ranks are
compared with exact values field by field (`Binary64.compare_rank_eq_compare_value`). -/
theorem numbers_are_totally_ordered :
    (∀ (ρ : Type) [Scalar ρ],
      (IsTotallyOrdered (Number ρ) ∧ IsTotallyOrdered (Atom ρ) ∧ IsTotallyOrdered (Outcome ρ)) ∧
      ((∀ i j : Int32, compare (.int i : Number ρ) (.int j) = compare i.toInt j.toInt) ∧
        (∀ x y : Number ρ, compare x y = Scalar.cmp x.toReal y.toReal) ∧
        (∀ x : Number ρ, compare Atom.absent (.number x) = .lt) ∧
        (∀ x y : Number ρ, compare (Atom.number x) (.number y) = compare x y) ∧
        ∀ o p : Outcome ρ, compare o p = .lt ↔ o.Precedes p) ∧
      (∀ x y : Number ρ,
        (∃! op, op ∈ [Operator.lt, .eq, .gt] ∧ op.value? x y = some .one) ∧
        (Operator.lt.value? x y = some .one ↔ compare x y = .lt) ∧
        (Operator.eq.value? x y = some .one ↔ x == y) ∧
        ∀ ops ∈ [(Operator.le, Operator.gt), (.ge, .lt), (.ne, .eq)],
          ∃ b, ops.2.value? x y = some (.ofBool b) ∧ ops.1.value? x y = some (.ofBool !b)) ∧
      (IsMaximum (Number.max (ρ := ρ)) ∧ IsMaximum (Atom.max (ρ := ρ))) ∧
      Table.IsMap (Number ρ) ∧ Table.IsMap (Atom ρ) ∧ Table.IsMap (Outcome ρ)) ∧
    ((∀ x y : Float, Binary64.cmp x y = compare (Binary64.rank x.toBits) (Binary64.rank y.toBits)) ∧
      (∀ b c : UInt64, Binary64.rank b = Binary64.rank c ↔
        b = c ∨ (b = 0 ∨ b = 0x8000000000000000) ∧ (c = 0 ∨ c = 0x8000000000000000)) ∧
      (∀ b c v w, Binary64.value? b = some v → Binary64.value? c = some w →
        compare (Binary64.rank b) (Binary64.rank c) = compare v w) ∧
      ∀ b c w, Binary64.value? b = none → Binary64.value? c = some w →
        if b.toNat < 2 ^ 63 then Binary64.rank c < Binary64.rank b
        else Binary64.rank b < Binary64.rank c) ∧
    (∀ x : Number Float, x.exactValue? = none ↔ x = .real Binary64.nan) ∧
    (∀ (x y : Number Float) v w, x.exactValue? = some v → y.exactValue? = some w →
      compare x y = compare v w) ∧
    (∀ (x y : Number Float) v, x.exactValue? = some v → (x == y ↔ y.exactValue? = some v)) ∧
    ∀ x y : Float, (.real x : Number Float) == .real y ↔
      x = y ∨ (x = 0.0 ∨ x = -0.0) ∧ (y = 0.0 ∨ y = -0.0) := by
  refine ⟨fun ρ _ => ⟨⟨?_, ?_, ?_⟩, ⟨fun _ _ => rfl, Number.compare_eq_cmp, fun _ => rfl, fun _ _ => rfl,
      Outcome.compare_lt_iff⟩, fun x y => ⟨Operator.existsUnique_holds x y, ?_, ?_,
      Operator.negates x y⟩, ⟨?_, ?_⟩, Table.isMap _, Table.isMap _, Table.isMap _⟩,
    ⟨Binary64.cmp_eq_compare_rank, Binary64.rank_eq_rank_iff,
      fun _ _ _ _ => Binary64.compare_rank_eq_compare_value, fun _ _ _ => Binary64.rank_lt_of_nan⟩,
    Number.exactValue?_eq_none_iff, fun _ _ _ _ => Number.compare_eq_compare_exactValue,
    fun _ _ _ => Number.beq_iff_exactValue_eq, fun x y => ?_⟩
  · exact isTotallyOrdered_of_beq fun _ _ => rfl
  · exact isTotallyOrdered_of_beq fun _ _ => rfl
  · exact isTotallyOrdered_of_beq fun _ _ => rfl
  · exact (Operator.ofBool_eq_one_iff _).trans Ordering.isLT_iff_eq_lt
  · refine (Operator.ofBool_eq_one_iff (compare x y).isEq).trans ?_
    show _ ↔ (compare x y == .eq) = true
    rw [Ordering.isEq_iff_eq_eq, beq_iff_eq]
  · exact isMaximum_of_ite fun _ _ => rfl
  · exact isMaximum_of_ite fun _ _ => rfl
  · show (Binary64.cmp x y == .eq) = true ↔ _
    rw [beq_iff_eq]
    exact Binary64.cmp_eq_eq_iff x y

end DiceCalculus
