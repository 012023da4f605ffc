import DiceCalculus.Proofs.Agreement.Forms
import DiceCalculus.Proofs.Exact
import DiceCalculus.Proofs.Law.Numbers
import DiceCalculus.Proofs.Law.Product
import DiceCalculus.Proofs.Law.RandomMaximum
import DiceCalculus.Proofs.Run.Play
import DiceCalculus.Proofs.WrittenForm.Laws
import DiceCalculus.Roller

set_option autoImplicit false
set_option relaxedAutoImplicit false

/-!
# The law of the greatest number

The law of a maximum is computed by taking in one independent number after the other, each time with the
joint law and the greatest component of its outcomes. That it is the law of the greatest number is said
by its cumulative masses: the greatest of independent numbers is not above a bound exactly if none of
them is. Dice that were not rolled lie below every number, and have no part in it.

## Main definitions

* `Law.massUpTo` — the mass of the outcomes up to a number.

## Main results

* `Law.isOver_greatest` — no outcome is absent, and none lies below `-∞`.
* `Law.massUpTo_greatest` — cumulative masses are multiplied.
* `Law.same_greatest_of_perm` — the order of the laws is of no account, up to written forms.
* `maximum_has_law_of_greatest` — all of these together.
-/

namespace DiceCalculus

variable {ρ : Type} [Scalar ρ]

open Outcome

/-! ## The greatest of a list of atoms -/

/-- `-∞` does not lie below itself. -/
lemma Number.negInfinity_not_lt : compare (negInfinity : Number ρ) negInfinity ≠ .lt := fun h => by
  cases Std.ReflCmp.compare_self.symm.trans h

namespace Atom

/-- An atom is a number, and does not lie below `-∞`. -/
def IsAtLeastNegInfinity (a : Atom ρ) : Prop := ∃ x, a = .number x ∧ compare x .negInfinity ≠ .lt

/-- An atom does not exceed itself. -/
lemma compare_self_ne_gt (a : Atom ρ) : compare a a ≠ .gt := fun h => by
  cases Std.ReflCmp.compare_self.symm.trans h

/-- Lists that exceed the same atoms have greatest atoms that compare equal. -/
lemma compare_greatest_eq {as bs : List (Atom ρ)}
    (h : ∀ c, (∃ a ∈ as, compare a c = .gt) ↔ ∃ b ∈ bs, compare b c = .gt) :
    compare (greatest as) (greatest bs) = .eq := by
  simp only [← compare_greatest_gt_iff] at h
  cases hcompare : compare (greatest as) (greatest bs) with
  | lt => exact absurd ((h _).2 (Std.OrientedCmp.gt_of_lt hcompare)) (compare_self_ne_gt _)
  | eq => rfl
  | gt => exact absurd ((h _).1 hcompare) (compare_self_ne_gt _)

/-- No member of a list exceeds its greatest one. -/
lemma compare_greatest_ne_gt {as : List (Atom ρ)} {a : Atom ρ} (ha : a ∈ as) :
    compare a (greatest as) ≠ .gt := fun h =>
  compare_self_ne_gt _ ((compare_greatest_gt_iff as _).2 ⟨a, ha, h⟩)

/-- The greatest of an atom that is not below `-∞` and of another one is not below `-∞`. -/
lemma IsAtLeastNegInfinity.greatest {a : Atom ρ} (ha : a.IsAtLeastNegInfinity) (b : Atom ρ) :
    (Atom.greatest [a, b]).IsAtLeastNegInfinity := by
  obtain ⟨x, rfl, hx⟩ := ha
  obtain ⟨y, hy⟩ := isNumber_greatest x b
  refine ⟨y, hy, fun hlt => hx ?_⟩
  have hle : compare (.number x) (Atom.greatest [.number x, b]) ≠ .gt :=
    compare_greatest_ne_gt List.mem_cons_self
  rw [hy] at hle
  exact Std.TransCmp.lt_of_isLE_of_lt (Ordering.isLE_iff_ne_gt.2 hle) hlt

end Atom

namespace Outcome

/-- The greatest of three outcomes does not depend on which of them are taken together first. -/
lemma compare_greater_right_comm (o p q : Outcome ρ) :
    compare (greater (greater o p) q) (greater (greater o q) p) = .eq := by
  have hatoms (p q : Outcome ρ) :
      (greater o p ++ q).atoms = Atom.greatest (o.atoms ++ p.atoms) :: q.atoms := rfl
  refine (compare_single_eq_iff _ _).2 (Atom.compare_greatest_eq fun c => ?_)
  simp only [hatoms, List.exists_mem_cons_iff, compare_greatest_gt_iff, List.mem_append, or_and_right,
    exists_or]
  exact or_right_comm

/-- A function of the greatest component that does not depend on how numbers are written. -/
lemma IsInvariant.greater_left {β : Type} {Q : Outcome ρ → β} (hQ : IsInvariant Q) (p : Outcome ρ) :
    IsInvariant fun o => Q (greater o p) := fun _ _ h =>
  hQ _ _ (compare_greater h Std.ReflCmp.compare_self)

/-- A bound holds of an outcome of one component that does not lie above it. -/
lemma atMost_single (v : Number ρ) (a : Atom ρ) :
    atMost v (single a) = if (compare (single a) (single (.number v))).isLE then 1 else 0 := by
  have hgreatest : compare (Atom.greatest (single a).atoms) (.number v) = .gt ↔
      compare a (.number v) = .gt :=
    (compare_greatest_gt_iff [a] _).trans (by rw [List.exists_mem_cons_iff]; simp)
  unfold atMost
  rw [compare_single]
  cases h : compare a (.number v) <;> simp [hgreatest, h]

end Outcome

/-! ## The law of the greatest of a list of numbers -/

namespace Law

/-- The mass of the outcomes up to a number. Dice that were not rolled are among these. -/
def massUpTo (v : Number ρ) (l : Law ρ ℚ) : ℚ :=
  l.massWhere fun o => (compare o (single (.number v))).isLE

variable {l l' d d' : Law ρ ℚ} {ls ls' : List (Law ρ ℚ)} {g : Outcome ρ → ℚ} {A B : Atom ρ → Prop}

/-! ### Its outcomes -/

/-- What holds of the greatest of every two components holds of the outcomes of their maximum. -/
lemma IsOver.max (hstep : ∀ a b, A a → B b → A (Atom.greatest [a, b])) (hl : l.IsOver A)
    (hl' : l'.IsOver B) : (l.max l').IsOver A := by
  refine Table.forall_key_ofEntries (Q := fun o : Outcome ρ => ∃ a, A a ∧ o = .single a)
    (List.forall_mem_map.2 fun e he => ?_)
  obtain ⟨a, b, ha, hb, hab⟩ := isOverPairs_product hl hl' e he
  exact ⟨_, hstep a b ha hb, by rw [hab]; rfl⟩

/-- What holds of `-∞`, and of the greatest of an atom and of an outcome of the list if it holds of the
atom, holds of the outcomes of the greatest. -/
lemma isOver_greatest_of_step (hstart : A (.number .negInfinity))
    (hstep : ∀ a b, A a → B b → A (Atom.greatest [a, b])) (hls : ∀ l ∈ ls, l.IsOver B) :
    (greatest ls).IsOver A := by
  have hfold (l : Law ρ ℚ) (hl : l.IsOver A) : (ls.foldl Law.max l).IsOver A := by
    induction ls generalizing l with
    | nil => exact hl
    | cons d ls ih =>
      rw [List.forall_mem_cons] at hls
      exact ih hls.2 _ (hl.max hstep hls.1)
  exact hfold _ (isOver_certain hstart)

/-- No outcome of the greatest is absent, and none lies below `-∞`. -/
theorem isOver_greatest (hls : ∀ l ∈ ls, l.IsOver fun _ => True) :
    (greatest ls).IsOver Atom.IsAtLeastNegInfinity :=
  isOver_greatest_of_step ⟨_, rfl, Number.negInfinity_not_lt⟩ (fun _ b ha _ => ha.greatest b) hls

/-- The greatest of dice that were not rolled is `-∞`. -/
lemma isOver_greatest_of_absent (hls : ∀ l ∈ ls, l.IsOver (· = .absent)) :
    (greatest ls).IsOver (· = .number .negInfinity) := by
  refine isOver_greatest_of_step rfl (fun a b ha hb => ?_) hls
  rw [ha, hb]
  rfl

/-! ### Its masses -/

/-- The mass up to a number is the integral of a bound. -/
lemma massUpTo_eq_integral (hl : l.IsOver A) (v : Number ρ) :
    l.massUpTo v = l.integral (atMost v) := by
  refine (massWhere_eq_integral _ l).trans (integral_congr fun e he => ?_)
  obtain ⟨a, -, ha⟩ := hl e he
  rw [ha, atMost_single]

/-- The mass of the greatest up to a number multiplies the masses of the list up to it. -/
theorem massUpTo_greatest (hls : ∀ l ∈ ls, l.IsOver fun _ => True) {v : Number ρ}
    (hv : compare v .negInfinity ≠ .lt) : (greatest ls).massUpTo v = (ls.map (massUpTo v)).prod := by
  have hstart : atMost v (single (.number .negInfinity)) = 1 := by
    rw [atMost_number]
    exact if_neg fun hgt => hv (Std.OrientedCmp.lt_of_gt hgt)
  rw [massUpTo_eq_integral (isOver_greatest hls), integral_greatest (isInvariant_atMost v),
    maximumIntegral_of_mul (atMost_greater v), hstart, one_mul]
  exact congrArg List.prod (List.map_congr_left fun l hl => (massUpTo_eq_integral (hls l hl) v).symm)

/-- The mass of all outcomes of the greatest multiplies those of the list. -/
lemma total_greatest (ls : List (Law ρ ℚ)) : (greatest ls).total = (ls.map total).prod := by
  have hmul (x : Number ρ) (o : Outcome ρ) : (1 : ℚ) = 1 * 1 := (one_mul 1).symm
  rw [total_eq_integral, integral_greatest (fun _ _ _ => rfl), maximumIntegral_of_mul hmul, one_mul]
  exact congrArg List.prod (List.map_congr_left fun l _ => (total_eq_integral l).symm)

/-- Where no outcome lies below `-∞`, the outcomes up to `-∞` are `-∞`. -/
lemma massOf_negInfinity (hl : l.IsOver Atom.IsAtLeastNegInfinity) :
    l.massOf (.number .negInfinity) = l.massUpTo .negInfinity := by
  refine (mass_eq_massWhere l _).trans (massWhere_congr fun e he => ?_)
  obtain ⟨_, ⟨x, rfl, hx⟩, he⟩ := hl e he
  have hcompare : compare e.1 (single (.number .negInfinity)) = compare x .negInfinity := by
    rw [he, compare_single]
    rfl
  rw [hcompare]
  cases h : compare x .negInfinity with
  | lt => exact absurd h hx
  | eq => rfl
  | gt => rfl

/-! ### The order of the list -/

/-- The outcomes of a maximum of two are the greatest components of every two outcomes. -/
lemma exists_outcome_max_iff {Q : Outcome ρ → Prop} (hQ : IsInvariant Q) :
    (∃ e ∈ (l.max l').entries, Q e.1) ↔
      ∃ e ∈ l.entries, ∃ e' ∈ l'.entries, Q (greater e.1 e'.1) := by
  have hgreatest : IsInvariant fun o : Outcome ρ => Q (single (Atom.greatest o.atoms)) :=
    hQ.comp_isCongruent isCongruent_greatest
  refine (Table.exists_key_ofEntries_iff fun o p h => (hQ o p h).to_iff).trans ?_
  simp only [List.mem_map, exists_exists_and_eq_and]
  exact exists_outcome_product_iff hgreatest

/-- The outcomes of a maximum of three. -/
lemma exists_outcome_max_max_iff {Q : Outcome ρ → Prop} (hQ : IsInvariant Q) :
    (∃ e ∈ ((l.max d).max d').entries, Q e.1) ↔ ∃ e ∈ l.entries, ∃ p ∈ d.entries,
      ∃ q ∈ d'.entries, Q (greater (greater e.1 p.1) q.1) := by
  have hlast : IsInvariant fun o => ∃ q ∈ d'.entries, Q (greater o q.1) := fun o p h =>
    propext (exists_congr fun q => and_congr_right fun _ => (hQ.greater_left q.1 o p h).to_iff)
  exact (exists_outcome_max_iff hQ).trans (exists_outcome_max_iff hlast)

/-- The integral over a maximum of three. -/
lemma integral_max_max (hg : IsInvariant g) (l d d' : Law ρ ℚ) :
    ((l.max d).max d').integral g = l.integral fun o => d.integral fun p =>
      d'.integral fun q => g (greater (greater o p) q) := by
  have hlast : IsInvariant fun o => d'.integral fun q => g (greater o q) := fun o p h =>
    integral_congr fun q _ => hg.greater_left q.1 o p h
  rw [integral_max hg, integral_max hlast]

/-- The order in which two laws are taken in is of no account, up to written forms. -/
lemma same_max_right_comm (l d d' : Law ρ ℚ) :
    ((l.max d).max d').Same ((l.max d').max d) := by
  refine same_of_mass (fun o => ?_) fun o => ?_
  · have hequal := isInvariant_compare_eq o
    have hswap {d d' : Law ρ ℚ} (h : ∃ e ∈ ((l.max d).max d').entries, compare e.1 o = .eq) :
        ∃ e ∈ ((l.max d').max d).entries, compare e.1 o = .eq := by
      obtain ⟨e, he, p, hp, q, hq, h⟩ := (exists_outcome_max_max_iff hequal).1 h
      refine (exists_outcome_max_max_iff hequal).2 ⟨e, he, q, hq, p, hp, ?_⟩
      exact Std.TransCmp.eq_trans (compare_greater_right_comm e.1 q.1 p.1) h
    exact ⟨hswap, hswap⟩
  · have hindicator := isInvariant_indicator o
    rw [mass_eq_integral, mass_eq_integral, integral_max_max hindicator,
      integral_max_max hindicator]
    refine integral_congr fun e _ => ?_
    rw [integral_comm]
    refine integral_congr fun q _ => integral_congr fun p _ => ?_
    exact hindicator _ _ (compare_greater_right_comm e.1 p.1 q.1)

/-- Laws that are the same up to written forms have maxima that are. -/
lemma Same.max (hl : l.Same l') (hd : d.Same d') : (l.max d).Same (l'.max d') :=
  Table.same_ofEntries (List.rel_map (fun _ _ he =>
    ⟨(compare_single_eq_iff _ _).2 (isCongruent_greatest _ _ he.1), he.2⟩) (hl.product hd))

/-- The order of the list is of no account, up to written forms.

**Proof sketch.** Two neighbours may be exchanged wherever they stand, since what is taken in after them
keeps laws the same up to written forms. -/
theorem same_greatest_of_perm (h : ls.Perm ls') : (greatest ls).Same (greatest ls') := by
  have hfold (ls : List (Law ρ ℚ)) {l l' : Law ρ ℚ} (hl : l.Same l') :
      (ls.foldl Law.max l).Same (ls.foldl Law.max l') := by
    induction ls generalizing l l' with
    | nil => exact hl
    | cons d ls ih => exact ih (hl.max (.refl d))
  have hperm (l : Law ρ ℚ) : (ls.foldl Law.max l).Same (ls'.foldl Law.max l) := by
    induction h generalizing l with
    | nil => exact .refl l
    | cons d _ ih => exact ih _
    | swap d d' ls => exact hfold ls (same_max_right_comm l d' d)
    | trans _ _ ih ih' => exact Table.Same.trans (ih l) (ih' l)
  exact hperm _

end Law

/-! ## The built-in function -/

/-- Without a limit of outcomes, the maximum of an expression has the law of the greatest of the laws of
its components. -/
lemma Builtin.play_max {σ : Type} [Roller σ] {x : Meaning ρ ℚ} {ls : List (Law ρ ℚ)}
    {s t : Session ρ ℚ} {r r' : σ} (hx : x.laws.play s r = (.ok ls, t, r'))
    (hfree : t.limits.maxOutcomes = none) :
    (Builtin.exact (.ofList [x]) .max).play s r = (.ok (Law.greatest ls), t, r') := by
  rw [Meaning.max_exact_eq, Run.play_bind_ok hx, Run.play_bind_ok (a := t.limits) rfl,
    Law.maximum_eq_ok hfree]
  rfl

/-- The exact maximum of a list of laws is the law of the greatest number. The laws are over outcomes of
one component, numbers or dice that were not rolled; there may be any number of them, and none. Without
a limit of outcomes the maximum has a law, of which all outcomes are numbers that do not lie below `-∞`.
Its mass up to a number that is not below `-∞` is the product of the masses up to it, to which dice that
were not rolled are counted. Its total is therefore the product of the totals, and the mass of `-∞` the
product of the masses up to it; if no die is ever rolled, the only outcome is `-∞`. The order of the
list changes no more than the written forms of the outcomes. -/
theorem maximum_has_law_of_greatest (ls : List (Law ρ ℚ)) (hls : ∀ l ∈ ls, l.IsOver fun _ => True) :
    (∀ (σ : Type) [Roller σ] (x : Meaning ρ ℚ) (s t : Session ρ ℚ) (r r' : σ),
      x.laws.play s r = (.ok ls, t, r') → t.limits.maxOutcomes = none →
      (Builtin.exact (.ofList [x]) .max).play s r = (.ok (Law.greatest ls), t, r')) ∧
    ((Law.greatest ls).IsOver fun a => ∃ x, a = .number x ∧ compare x .negInfinity ≠ .lt) ∧
    (∀ v : Number ρ, compare v .negInfinity ≠ .lt →
      (Law.greatest ls).massUpTo v = (ls.map (Law.massUpTo v)).prod) ∧
    (Law.greatest ls).total = (ls.map Law.total).prod ∧
    (Law.greatest ls).massOf (.number .negInfinity) = (ls.map (Law.massUpTo .negInfinity)).prod ∧
    ((∀ l ∈ ls, l.IsOver (· = .absent)) → (Law.greatest ls).IsOver (· = .number .negInfinity)) ∧
    ∀ ls', ls.Perm ls' → (Law.greatest ls).Same (Law.greatest ls') := by
  have hnumbers := Law.isOver_greatest hls
  refine ⟨fun σ _ x s t r r' hx hfree => Builtin.play_max hx hfree, hnumbers,
    fun v hv => Law.massUpTo_greatest hls hv, Law.total_greatest ls, ?_,
    Law.isOver_greatest_of_absent, fun ls' => Law.same_greatest_of_perm⟩
  exact (Law.massOf_negInfinity hnumbers).trans (Law.massUpTo_greatest hls Number.negInfinity_not_lt)

/-- Two dice that may be missing, of which the second shows the face of the first as a real: the law of
the greatest, in either order, and the law of a die that is never rolled.

**Proof sketch.** The laws are of single atoms by their construction. The theorem is applied to the
two dice in one order, which gives the law in the other one too, and to the die that is never
rolled. The masses of the single dice that go into the products are computed. -/
theorem maximum_has_law_of_greatest_of_missing_dice :
    let lawOf (es : List (Atom (WithBot ℚ) × ℚ)) : Law (WithBot ℚ) ℚ :=
      .ofEntries (es.map fun e => (.single e.1, e.2))
    let first := lawOf [(.absent, 1 / 2), (.number (.int 1), 1 / 2)]
    let second :=
      lawOf [(.absent, 1 / 4), (.number (.real (1 : ℚ)), 1 / 4), (.number (.int 2), 1 / 2)]
    let never := lawOf [(.absent, 1)]
    let s : Session (WithBot ℚ) ℚ :=
      (Session.start ⟨none, none, none, 0⟩).bindGlobal "dice" (.laws [first, second])
    let r : Stepper := ⟨2, 1⟩
    (∃ d, (Builtin.exact (.ofList [.var "dice"]) .max).play s r = (.ok d, s, r) ∧
      d.massUpTo (.int 1) = 1 / 2 ∧ d.massOf (.number .negInfinity) = 1 / 8 ∧
      d.Same (.greatest [second, first])) ∧
    (Law.greatest [never]).IsOver (· = .number .negInfinity) := by
  intro lawOf first second never s r
  have hover (es : List (Atom (WithBot ℚ) × ℚ)) : (lawOf es).IsOver (· ∈ es.map Prod.fst) :=
    Table.forall_key_ofEntries
      (Q := fun o : Outcome (WithBot ℚ) => ∃ a, a ∈ es.map Prod.fst ∧ o = .single a)
      (List.forall_mem_map.2 fun e he => ⟨e.1, List.mem_map_of_mem he, rfl⟩)
  have hany (es : List (Atom (WithBot ℚ) × ℚ)) : (lawOf es).IsOver fun _ => True := fun e he =>
    (hover es e he).imp fun _ h => ⟨trivial, h.2⟩
  have hdice : ∀ l ∈ [first, second], l.IsOver fun _ => True :=
    List.forall_mem_cons.2 ⟨hany _, List.forall_mem_singleton.2 (hany _)⟩
  obtain ⟨hplay, -, hupTo, -, hleast, -, hperm⟩ := maximum_has_law_of_greatest [first, second] hdice
  obtain ⟨-, -, -, -, -, habsent, -⟩ :=
    maximum_has_law_of_greatest [never] (List.forall_mem_singleton.2 (hany _))
  have hdraw : (Builtin.exact (.ofList [.var "dice"]) .max).play s r = _ :=
    hplay Stepper (.var "dice") s s r r rfl rfl
  refine ⟨⟨_, hdraw, ?_, ?_, hperm _ (.swap _ _ _)⟩, habsent (List.forall_mem_singleton.2 ?_)⟩
  · exact (hupTo (.int 1) (by decide)).trans (by decide +kernel)
  · exact hleast.trans (by decide +kernel)
  · exact fun e he => (hover _ e he).imp fun _ h => ⟨List.mem_singleton.1 h.1, h.2⟩

end DiceCalculus
