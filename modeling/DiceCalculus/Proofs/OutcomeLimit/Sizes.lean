import DiceCalculus.Proofs.DiceOperands
import DiceCalculus.Proofs.FaceSums

set_option autoImplicit false
set_option relaxedAutoImplicit false

/-!
# Sizes of laws under a limit of outcomes

The limit of outcomes is compared with the number of pairs of a joint law and with the number of faces
of a die, before either is made. A law that is made of one joint law is therefore within the limit. The
law of a roll is a mixture of sums, one for each pair of operands, and its outcomes are not counted.
They are bounded all the same: if a die has several faces, then the greatest total of a roll is at most
the number of pairs that were counted for its last die. All outcomes of the mixture are totals up to the
limit, and zero is one of them only if there may be no dice. If no die has several faces, then there is
one outcome for each pair of operands.

## Main definitions

* `Outcome.totals` — the totals of faces between two bounds, as outcomes.

## Main results

* `Law.size_le_of_product_fold`, `Law.size_maximumFrom_le` — the laws of operators and of maxima.
* `Dice.mul_le_of_sumLaw` — the greatest total of dice whose sum has a law.
* `Dice.size_law_le` — the law of a roll.
-/

namespace DiceCalculus

variable {ρ μ : Type} [Scalar ρ]

open Outcome

/-! ## Totals as outcomes -/

namespace Outcome

variable {lo hi : Nat} {o : Outcome Float}

/-- The totals of faces between two bounds, as outcomes. -/
def totals (lo hi : Nat) : List (Outcome Float) :=
  (List.range' lo (hi + 1 - lo)).map fun n => single (.number (.ofTotal n))

/-- A total between two bounds. -/
lemma mem_totals : o ∈ totals lo hi ↔ ∃ n, lo ≤ n ∧ n ≤ hi ∧ o = single (.number (.ofTotal n)) := by
  unfold totals
  rw [List.mem_map]
  constructor
  · rintro ⟨n, hn, rfl⟩
    rw [List.mem_range'_1] at hn
    exact ⟨n, by omega, by omega, rfl⟩
  · rintro ⟨n, hlo, hhi, rfl⟩
    exact ⟨n, List.mem_range'_1.2 (by omega), rfl⟩

/-- The number of totals between two bounds. -/
lemma length_totals (lo hi : Nat) : (totals lo hi).length = hi + 1 - lo := by
  unfold totals
  rw [List.length_map, List.length_range']

/-- Different totals are different outcomes, as long as they do not exceed `2 ^ 53`. -/
lemma nodup_totals (hbound : hi ≤ 2 ^ 53) : (totals lo hi).Nodup := by
  refine List.Nodup.map_on ?_ List.nodup_range'
  intro m hm n hn heq
  rw [List.mem_range'_1] at hm hn
  have hnumber : Number.ofTotal m = Number.ofTotal n := by
    injection heq with hatom
    injection hatom
  apply Number.eq_of_compare_ofTotal (by omega) (by omega)
  rw [hnumber]
  exact Std.ReflCmp.compare_self

end Outcome

/-! ## Laws that are made at once -/

section Counted

variable [Mass μ] {limits : Limits μ} {limit : Nat} (hlimit : limits.maxOutcomes = some limit)

namespace Law

/-- The law of a constant has one outcome. -/
lemma size_certain_le (a : Atom ρ) : (certain a : Law ρ μ).size ≤ 1 := Table.size_ofEntries_le _

/-- A joint law has at most one outcome for each pair. -/
lemma size_product_le (l l' : Law ρ μ) : (l.product l').size ≤ l.size * l'.size := by
  refine (Table.size_ofEntries_le _).trans (le_of_eq ?_)
  simp [List.length_flatMap, Table.size]

/-- A function of outcomes makes no outcomes. -/
lemma size_fold_le {ε : Type} {f : List (Atom ρ) → Except ε (Atom ρ)} {l d : Law ρ μ}
    (h : l.fold f = .ok d) : d.size ≤ l.size := by
  obtain ⟨es, hes, hd⟩ := Except.bind_eq_ok_iff.1 h
  obtain rfl := Except.pure_eq_ok_iff.1 hd
  have hlength : l.entries.length = es.length := (Except.mapM_eq_ok_iff.1 hes).length_eq
  exact (Table.size_ofEntries_le es).trans (le_of_eq hlength.symm)

/-- The outcomes of a law that is added are outcomes of the mixture. -/
lemma keys_addScaled_subset (target : Law ρ μ) (weight : μ) (l : Law ρ μ) :
    (target.addScaled weight l).keys ⊆ target.keys ++ l.keys := by
  have hkeys := target.keys_addAll_subset (l.entries.map fun e => (e.1, e.2 * weight))
  rwa [List.map_map] at hkeys

/-- A mixture has no more outcomes than the laws that it is made of together. -/
lemma size_addScaled_le (target : Law ρ μ) (weight : μ) (l : Law ρ μ) :
    (target.addScaled weight l).size ≤ target.size + l.size := by
  have hsize := Table.size_le_of_subset (keys_addScaled_subset target weight l)
  rwa [List.length_append, Table.keys, Table.keys, List.length_map, List.length_map] at hsize

end Law

include hlimit

omit [Mass μ] in
/-- A number that is allowed is not greater than the limit. -/
lemma Limits.le_of_allows {n : Nat} (h : allows limits.maxOutcomes n = true) : n ≤ limit := by
  rw [hlimit] at h
  exact of_decide_eq_true h

/-- A joint law that is allowed. -/
lemma Limits.size_product_le {l l' d : Law ρ μ} (h : limits.product l l' = .ok d) :
    l.size * l'.size ≤ limit ∧ d = l.product l' := by
  obtain ⟨hallows, hd⟩ := Limits.product_eq_ok_iff.1 h
  exact ⟨Limits.le_of_allows hlimit hallows, hd⟩

/-- A function of a joint law that is allowed. -/
lemma Law.size_le_of_product_fold {l l' d : Law ρ μ}
    {f : List (Atom ρ) → Except (Fault ρ μ) (Atom ρ)}
    (h : (do (← limits.product l l').fold f) = .ok d) : d.size ≤ limit := by
  obtain ⟨joint, hjoint, hd⟩ := Except.bind_eq_ok_iff.1 h
  obtain ⟨hle, rfl⟩ := Limits.size_product_le hlimit hjoint
  exact (size_fold_le hd).trans ((size_product_le l l').trans hle)

/-- The law of a maximum that is allowed. -/
lemma Law.size_maximumFrom_le {ls : List (Law ρ μ)} {l d : Law ρ μ} (hl : l.size ≤ limit)
    (h : maximumFrom limits l ls = .ok d) : d.size ≤ limit := by
  induction ls generalizing l with
  | nil => exact Except.ok.inj h ▸ hl
  | cons l' ls ih =>
    obtain ⟨joint, hjoint, h⟩ := Except.bind_eq_ok_iff.1 h
    obtain ⟨l'', hfold, h⟩ := Except.bind_eq_ok_iff.1 h
    refine ih ?_ h
    exact size_le_of_product_fold hlimit (Except.bind_eq_ok_iff.2 ⟨joint, hjoint, hfold⟩)

end Counted

/-! ## Laws of totals -/

namespace Law

variable {l : Law Float μ} {lo hi : Nat}

/-- A law of all totals between two bounds has as many outcomes. -/
lemma IsOfTotals.le_size (hl : l.IsOfTotals lo hi) (hbound : hi ≤ 2 ^ 53) : hi + 1 - lo ≤ l.size := by
  have hsubset : totals lo hi ⊆ l.keys := by
    intro o ho
    exact (hl o).2 (mem_totals.1 ho)
  have hlength := ((nodup_totals hbound).subperm hsubset).length_le
  rwa [length_totals, Table.keys, List.length_map] at hlength

/-- A law whose outcomes are totals between two bounds has no more outcomes than there are. -/
lemma size_le_of_totals (h : l.keys ⊆ totals lo hi) : l.size ≤ hi + 1 - lo :=
  (Table.size_le_of_subset h).trans_eq (length_totals lo hi)

end Law

/-! ## The greatest total of dice -/

namespace Dice

section Bounds

variable {start sides limit : Nat}

/-- The pairs that are counted for one more die are at least as many as the greatest total. -/
lemma succ_mul_le {size : Nat} (hsides : 2 ≤ sides) (hsize : start * sides + 1 - start ≤ size)
    (hpairs : size * sides ≤ limit) : (start + 1) * sides ≤ limit := by
  have hdouble : start * 2 ≤ start * sides := Nat.mul_le_mul_left start hsides
  calc (start + 1) * sides ≤ size * sides := Nat.mul_le_mul_right sides (by omega)
    _ ≤ limit := hpairs

/-- If the pairs that are counted for one more die fit into a word, then doubles hold the greatest
total.

**Proof sketch.** If the total exceeded `2 ^ 53`, then a die would have more than `2 ^ 22` faces, and the
sum without it at least `2 ^ 51` outcomes. -/
lemma succ_mul_le_of_lt {size : Nat} (hstart : start + 1 < 2 ^ 31) (hsides : sides < 2 ^ 31)
    (hlimit : limit < 2 ^ 64) (hsize : start * sides + 1 - start ≤ size)
    (hpairs : size * sides ≤ limit) : (start + 1) * sides ≤ 2 ^ 53 := by
  by_contra hgreat
  rw [not_le, Nat.succ_mul] at hgreat
  have hfaces : 2 ^ 22 ≤ sides := by
    by_contra hfew
    have hmul : (start + 1) * sides ≤ 2 ^ 31 * 2 ^ 22 := Nat.mul_le_mul (by omega) (by omega)
    rw [Nat.succ_mul] at hmul
    omega
  have hdouble : start * 2 ≤ start * sides := Nat.mul_le_mul_left start (by omega)
  have hmany : 2 ^ 51 ≤ size := by omega
  have hmul : 2 ^ 51 * 2 ^ 22 ≤ size * sides := Nat.mul_le_mul hmany hfaces
  omega

end Bounds

variable [Mass μ] {limits : Limits μ} {limit : Nat} (hlimit : limits.maxOutcomes = some limit)
  (hword : limit < 2 ^ 64)

include hlimit hword

/-- The greatest total after a number of dice is held by doubles, and it does not exceed the limit if
the dice have several faces.

**Proof sketch.** By induction over the number of dice, for all numbers of dice that were added before.
A law of sums has as many outcomes as there are totals, so that the pairs that are counted for the next
die bound the totals that it leads to. -/
lemma mul_le_of_addDice {count start sides : Nat} (hpos : 0 < sides) (hsides : sides < 2 ^ 31)
    (hcount : start + count < 2 ^ 31) {sum d : Law Float μ}
    (hsum : sum.IsOfTotals start (start * sides)) (hstart : start * sides ≤ 2 ^ 53)
    (h : addDice limits (.uniform sides) count sum = .ok d) :
    (start + count) * sides ≤ 2 ^ 53 ∧
      (2 ≤ sides → start * sides ≤ limit → (start + count) * sides ≤ limit) := by
  induction count generalizing start sum with
  | zero => exact ⟨hstart, fun _ hle => hle⟩
  | succ count ih =>
    obtain ⟨next, hnext, h⟩ := Except.bind_eq_ok_iff.1 h
    obtain ⟨joint, hjoint, -⟩ := Except.bind_eq_ok_iff.1 hnext
    obtain ⟨hpairs, -⟩ := Limits.size_product_le hlimit hjoint
    have hdie : (.uniform sides : Law Float μ).IsOfTotals 1 sides := Law.isOfTotals_uniform hsides
    have hfaces : sides ≤ (.uniform sides : Law Float μ).size := hdie.le_size (by omega)
    have hpairs : sum.size * sides ≤ limit := (Nat.mul_le_mul_left _ hfaces).trans hpairs
    have hsize := hsum.le_size hstart
    have hheld := succ_mul_le_of_lt (by omega) hsides hword hsize hpairs
    have hle : start ≤ start * sides := Nat.le_mul_of_pos_right start hpos
    have hmore : (start + 1) * sides = start * sides + sides := Nat.succ_mul ..
    have htotals := hsum.of_operate hdie hle hpos (by omega) (by omega) (by omega) hnext
    rw [← hmore] at htotals
    rw [← Nat.add_assoc, Nat.add_right_comm]
    obtain ⟨hall, hlast⟩ := ih (by omega) htotals hheld h
    exact ⟨hall, fun hseveral _ => hlast hseveral (succ_mul_le hseveral hsize hpairs)⟩

/-- The greatest total of dice whose sum has a law is held by doubles, and it does not exceed the limit
if the dice have several faces. -/
lemma mul_le_of_sumLaw {count sides : Nat} (hcount : count < 2 ^ 31) (hpos : 0 < sides)
    (hsides : sides < 2 ^ 31) {d : Law Float μ} (h : sumLaw limits count sides = .ok d) :
    count * sides ≤ 2 ^ 53 ∧ (2 ≤ sides → count * sides ≤ limit) := by
  obtain ⟨die, hdie, h⟩ := Except.bind_eq_ok_iff.1 h
  obtain rfl := Limits.eq_uniform_of_ok hdie
  have hzero : (0 : Nat) = 0 * sides := (Nat.zero_mul sides).symm
  have hstart : (.certain (.number .zero) : Law Float μ).IsOfTotals 0 (0 * sides) :=
    hzero ▸ Law.isOfTotals_zero
  have hbounds := mul_le_of_addDice hlimit hword hpos hsides (by omega) hstart (by omega) h
  rw [Nat.zero_add] at hbounds
  exact ⟨hbounds.1, fun hseveral => hbounds.2 hseveral (by omega)⟩

/-- The outcomes of dice whose sum has a law. -/
lemma keys_subset_of_sumLaw {count sides : Nat} (hcount : count < 2 ^ 31) (hpos : 0 < sides)
    (hsides : sides < 2 ^ 31) {d : Law Float μ} (h : sumLaw limits count sides = .ok d) :
    d.keys ⊆ totals count (count * sides) := by
  obtain ⟨hheld, -⟩ := mul_le_of_sumLaw hlimit hword hcount hpos hsides h
  intro o ho
  exact mem_totals.2 ((isOfTotals_of_sumLaw hpos hsides hheld h o).1 ho)

end Dice

/-! ## Mixtures of sums -/

namespace Dice

variable {o o' p p' : Outcome ρ} {n m n' m' : Nat}

/-- The operands of a pair of outcomes come from the one and from the other. -/
lemma operands_append_cross (h : operands (μ := μ) (o ++ o').atoms = .ok (n, m))
    (h' : operands (μ := μ) (p ++ p').atoms = .ok (n', m')) :
    operands (μ := μ) (o ++ p').atoms = .ok (n, m') := by
  obtain ⟨x, y, hxy, hn, -⟩ := operands_eq_ok_iff.1 h
  obtain ⟨x', y', hxy', -, hm'⟩ := operands_eq_ok_iff.1 h'
  obtain ⟨rfl, -⟩ := atoms_append_eq_pair_iff.1 hxy
  obtain ⟨-, rfl⟩ := atoms_append_eq_pair_iff.1 hxy'
  exact operands_eq_ok_iff.2 ⟨x, y', rfl, hn, hm'⟩

/-- The operands of a roll fit into the integers of 32 bits, and a die has a face at least. -/
lemma operands_bounds {as : List (Atom ρ)} (h : operands (μ := μ) as = .ok (n, m)) :
    n < 2 ^ 31 ∧ 0 < m ∧ m < 2 ^ 31 := by
  obtain ⟨x, y, -, hn, hm⟩ := operands_eq_ok_iff.1 h
  exact ⟨count_lt hn, sides_bounds hm⟩

/-- A pair of operands without dice has an outcome that is zero. -/
lemma isInteger_zero_of_operands (h : operands (μ := μ) (o ++ o').atoms = .ok (0, m)) :
    o.IsInteger (· = 0) := by
  obtain ⟨x, y, hxy, hn, -⟩ := operands_eq_ok_iff.1 h
  obtain ⟨rfl, -⟩ := atoms_append_eq_pair_iff.1 hxy
  obtain ⟨i, hi, hnonneg, hzero⟩ := count_eq_ok_iff.1 hn
  exact isInteger_number_iff.2 ⟨i, hi, by omega⟩

variable [Mass μ] {limits : Limits μ} {es : List (Outcome ρ × μ)} {mixture d : Law ρ μ}

/-- An outcome of a mixture of sums was one before or is one of a sum. -/
lemma exists_sum_of_mem_mixSums (h : mixSums limits es mixture = .ok d) {a : Outcome ρ}
    (ha : a ∈ d.keys) : a ∈ mixture.keys ∨ ∃ e ∈ es, ∃ n m, ∃ sum : Law ρ μ,
      operands (μ := μ) e.1.atoms = .ok (n, m) ∧ sumLaw limits n m = .ok sum ∧ a ∈ sum.keys := by
  induction es generalizing mixture with
  | nil => exact .inl (Except.ok.inj h ▸ ha)
  | cons e es ih =>
    obtain ⟨⟨n, m⟩, hop, h⟩ := Except.bind_eq_ok_iff.1 h
    obtain ⟨sum, hsum, h⟩ := Except.bind_eq_ok_iff.1 h
    rcases ih h with hmixture | ⟨e', he', hrest⟩
    · rcases List.mem_append.1 (Law.keys_addScaled_subset mixture e.2 sum hmixture) with hbefore | hnew
      · exact .inl hbefore
      · exact .inr ⟨e, List.mem_cons_self, n, m, sum, hop, hsum, hnew⟩
    · exact .inr ⟨e', List.mem_cons_of_mem e he', hrest⟩

/-- If every sum has one outcome, then a mixture of sums has no more than one for each pair of
operands. -/
lemma size_mixSums_le (hone : ∀ e ∈ es, ∀ n m, ∀ sum : Law ρ μ,
      operands (μ := μ) e.1.atoms = .ok (n, m) → sumLaw limits n m = .ok sum → sum.size ≤ 1)
    (h : mixSums limits es mixture = .ok d) : d.size ≤ mixture.size + es.length := by
  induction es generalizing mixture with
  | nil => exact Except.ok.inj h ▸ Nat.le_refl _
  | cons e es ih =>
    obtain ⟨⟨n, m⟩, hop, h⟩ := Except.bind_eq_ok_iff.1 h
    obtain ⟨sum, hsum, h⟩ := Except.bind_eq_ok_iff.1 h
    obtain ⟨hhead, htail⟩ := List.forall_mem_cons.1 hone
    have hsize := hhead n m sum hop hsum
    have hadd := Law.size_addScaled_le mixture e.2 sum
    have hrest := ih htail h
    rw [List.length_cons]
    omega

end Dice

/-! ## The law of a roll -/

namespace Dice

variable [Mass μ] {limits : Limits μ} {limit : Nat} (hlimit : limits.maxOutcomes = some limit)
  (hword : limit < 2 ^ 64) {l l' d : Law Float μ}

include hlimit hword

/-- If a roll has a law, and a die with several faces is possible, then no total of a pair of operands
exceeds the limit.

**Proof sketch.** The number of dice of the pair also occurs with the die that has several faces, for
which the totals are bounded, and a die with one face leads to no greater total. -/
lemma mul_le_of_law (h : law limits l l' = .ok d) {o o' p p' : Outcome Float} {n m n' m' : Nat}
    (ho : o ∈ l.keys) (ho' : o' ∈ l'.keys) (hp' : p' ∈ l'.keys)
    (hop : operands (μ := μ) (o ++ o').atoms = .ok (n, m))
    (hop' : operands (μ := μ) (p ++ p').atoms = .ok (n', m')) (hseveral : 2 ≤ m') :
    n * m ≤ limit := by
  obtain ⟨joint, hjoint, h⟩ := Except.bind_eq_ok_iff.1 h
  obtain rfl := Limits.eq_product_of_ok hjoint
  have hbounded : ∀ e ∈ (l.product l').entries, ∃ n m,
      operands (μ := μ) e.1.atoms = .ok (n, m) ∧ (2 ≤ m → n * m ≤ limit) := by
    intro e he
    obtain ⟨n, m, hop, sum, hsum⟩ := exists_sumLaw_of_mixSums h e he
    obtain ⟨hn, hpos, hm⟩ := operands_bounds hop
    exact ⟨n, m, hop, (mul_le_of_sumLaw hlimit hword hn hpos hm hsum).2⟩
  have hpairs {o o' : Outcome Float} (ho : o ∈ l.keys) (ho' : o' ∈ l'.keys) {n m : Nat}
      (hop : operands (μ := μ) (o ++ o').atoms = .ok (n, m)) (hseveral : 2 ≤ m) : n * m ≤ limit := by
    obtain ⟨n', m', hop', hle⟩ :=
      (Law.forall_product_iff isInvariant_exists_operands).1 hbounded o ho o' ho'
    obtain ⟨rfl, rfl⟩ := Prod.mk.inj (Except.ok.inj (hop.symm.trans hop'))
    exact hle hseveral
  by_cases hm : 2 ≤ m
  · exact hpairs ho ho' hop hm
  · calc n * m ≤ n * m' := Nat.mul_le_mul_left n (by omega)
      _ ≤ limit := hpairs ho hp' (operands_append_cross hop hop') hseveral

/-- If a die with several faces is possible, then the outcomes of a roll are totals up to the limit, each
of at least as many faces as there are dice. -/
lemma exists_totals_of_law (h : law limits l l' = .ok d) {p p' : Outcome Float} {n' m' : Nat}
    (hp' : p' ∈ l'.keys) (hop' : operands (μ := μ) (p ++ p').atoms = .ok (n', m'))
    (hseveral : 2 ≤ m') {a : Outcome Float} (ha : a ∈ d.keys) : ∃ o ∈ l.keys, ∃ o' n m,
      operands (μ := μ) (o ++ o').atoms = .ok (n, m) ∧ a ∈ totals n limit := by
  obtain ⟨joint, hjoint, hmix⟩ := Except.bind_eq_ok_iff.1 h
  obtain rfl := Limits.eq_product_of_ok hjoint
  obtain ha | ⟨e, he, n, m, sum, hop, hsum, ha⟩ := exists_sum_of_mem_mixSums hmix ha
  · cases ha
  obtain ⟨o, ho, o', ho', heq⟩ := Law.exists_append_of_mem_product (List.mem_map_of_mem he)
  obtain ⟨hn, hpos, hm⟩ := operands_bounds hop
  rw [heq] at hop
  have hle := mul_le_of_law hlimit hword h ho ho' hp' hop hop' hseveral
  obtain ⟨t, hlo, hhi, rfl⟩ :=
    mem_totals.1 (keys_subset_of_sumLaw hlimit hword hn hpos hm hsum ha)
  exact ⟨o, ho, o', n, m, hop, mem_totals.2 ⟨t, hlo, hhi.trans hle, rfl⟩⟩

/-- If no die with several faces is possible, then the law of a roll is within the limit: every sum has
one outcome, and the pairs of operands were counted. -/
lemma size_law_le_of_one_face (h : law limits l l' = .ok d)
    (hone : ∀ o ∈ (l.product l').keys, ∀ n m, operands (μ := μ) o.atoms = .ok (n, m) → m ≤ 1) :
    d.size ≤ limit := by
  obtain ⟨joint, hjoint, hmix⟩ := Except.bind_eq_ok_iff.1 h
  obtain ⟨hcounted, rfl⟩ := Limits.size_product_le hlimit hjoint
  have hsums : ∀ e ∈ (l.product l').entries, ∀ n m, ∀ sum : Law Float μ,
      operands (μ := μ) e.1.atoms = .ok (n, m) → sumLaw limits n m = .ok sum → sum.size ≤ 1 := by
    intro e he n m sum hop hsum
    obtain ⟨hn, hpos, hm⟩ := operands_bounds hop
    have hface := hone e.1 (List.mem_map_of_mem he) n m hop
    obtain rfl : m = 1 := by omega
    have hle := Law.size_le_of_totals (keys_subset_of_sumLaw hlimit hword hn hpos hm hsum)
    omega
  calc d.size ≤ 0 + (l.product l').size := size_mixSums_le hsums hmix
    _ = (l.product l').size := Nat.zero_add _
    _ ≤ l.size * l'.size := Law.size_product_le l l'
    _ ≤ limit := hcounted

/-- The law of a roll is within the limit, or has one outcome more if there may be no dice.

**Proof sketch.** If a die with several faces is possible, then all outcomes are totals up to the limit,
and zero is one of them only if there may be no dice. -/
theorem size_law_le (h : law limits l l' = .ok d) :
    d.size ≤ limit ∨ d.size = limit + 1 ∧ ∃ o ∈ l.keys, o.IsInteger (· = 0) := by
  by_cases hone : ∀ o ∈ (l.product l').keys, ∀ n m, operands (μ := μ) o.atoms = .ok (n, m) → m ≤ 1
  · exact .inl (size_law_le_of_one_face hlimit hword h hone)
  push Not at hone
  obtain ⟨_, hmem, n', m', hop', hseveral⟩ := hone
  obtain ⟨p, -, p', hp', rfl⟩ := Law.exists_append_of_mem_product hmem
  have htotals {a : Outcome Float} (ha : a ∈ d.keys) :=
    exists_totals_of_law hlimit hword h hp' hop' hseveral ha
  by_cases hzero : ∃ o ∈ l.keys, o.IsInteger (· = 0)
  · have hsize : d.size ≤ limit + 1 - 0 := by
      refine Law.size_le_of_totals fun a ha => ?_
      obtain ⟨o, -, o', n, m, -, ha⟩ := htotals ha
      obtain ⟨t, -, hhi, rfl⟩ := mem_totals.1 ha
      exact mem_totals.2 ⟨t, Nat.zero_le t, hhi, rfl⟩
    rcases Nat.lt_or_ge limit d.size with hlt | hle
    · exact .inr ⟨by omega, hzero⟩
    · exact .inl hle
  · have hsize : d.size ≤ limit + 1 - 1 := by
      refine Law.size_le_of_totals fun a ha => ?_
      obtain ⟨o, ho, o', n, m, hop, ha⟩ := htotals ha
      obtain ⟨t, hlo, hhi, rfl⟩ := mem_totals.1 ha
      have hn : n ≠ 0 := by
        rintro rfl
        exact hzero ⟨o, ho, isInteger_zero_of_operands hop⟩
      exact mem_totals.2 ⟨t, by omega, hhi, rfl⟩
    exact .inl hsize

end Dice

end DiceCalculus
