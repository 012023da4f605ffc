import DiceCalculus.Proofs.Agreement.Draws
import DiceCalculus.Proofs.Conservation

set_option autoImplicit false
set_option relaxedAutoImplicit false

/-!
# Forms of expressions whose samples and laws agree

The law of an expression is computed from the laws of its parts, and a sample of it from samples of
its parts. If samples of the parts are drawn from their laws, samples of the whole are.

## Main definitions

* `Meaning.Agrees` — the law of an expression exists exactly if all samples succeed, and samples
  are drawn from it.
* `Meaning.ItemsAgree` — the same of the components of an expression.
* `Meaning.HasLaw` — an expression has a law, and samples are drawn from it.

## Main results

* `Meaning.agrees_binary`, `Meaning.agrees_dice`, `Meaning.agrees_branch`, `Meaning.agrees_max` —
  operators, rolls, conditionals and maxima.
* `Meaning.itemsAgree_sequence`, `Meaning.itemsAgree_dice` — sequences, and rolls whose operands are
  certain.
-/

namespace DiceCalculus

variable {ρ : Type} [Scalar ρ]

open Outcome

/-- A law of numbers with another one added to it, if the weight is above zero. -/
lemma Law.IsNumeric.addPositive {target l : Law ρ ℚ} (htarget : target.IsNumeric) {weight : ℚ}
    (hl : Mass.isPositive weight = true → l.IsNumeric) : (target.addPositive weight l).IsNumeric := by
  unfold Law.addPositive
  split
  · next h => exact htarget.addScaled ((Mass.isPositive_iff _).1 h) (hl h)
  · exact htarget

namespace Meaning

/-- The law of an expression exists exactly if all samples succeed, and samples are drawn from
it. -/
def Agrees (s : Session ρ ℚ) (x : Meaning ρ ℚ) : Prop :=
  Run.Agrees s x.value x.law fun l => l.IsDrawnBy x.value s

/-- The laws of the components of an expression exist exactly if all samples of them succeed, and
samples are drawn from them. -/
def ItemsAgree (s : Session ρ ℚ) (x : Meaning ρ ℚ) : Prop :=
  Run.Agrees s x.items x.laws fun ls => Law.AreDrawnBy ls x.items s

/-- An expression has a law, and samples of it are drawn from that law. -/
def HasLaw (s : Session ρ ℚ) (x : Meaning ρ ℚ) (l : Law ρ ℚ) : Prop :=
  l.IsDrawnBy x.value s ∧ ∀ t, s.Charged t → x.law.exec t = .done (.ok l, t)

variable {s : Session ρ ℚ} {x y : Meaning ρ ℚ} {l l' d : Law ρ ℚ}

/-! ## Constants -/

/-- A number that is given is drawn from the law of a constant. -/
lemma isDrawnBy_pure (s : Session ρ ℚ) (x : Number ρ) :
    (Law.certain (.number x)).IsDrawnBy (pure (.number x)) s where
  numeric := Law.isNumeric_certain x
  normalized := Law.isNormalized_certain _
  results ht _ _ h := by
    obtain ⟨rfl, rfl⟩ := Run.leads_pure.1 h
    exact ⟨ht, x, rfl⟩
  mean _ _ _ := by
    rw [Run.mean_pure, Law.integral_certain]
    rfl

/-- A literal. -/
lemma agrees_literal (s : Session ρ ℚ) (x : Number ρ) : (literal x).Agrees s :=
  Run.agrees_pure (fun _ _ => Run.succeeds_pure _) (isDrawnBy_pure s x)

/-- A variable that is bound to a number. -/
lemma agrees_var {name : String} {x : Number ρ}
    (h : s.frames.lookup? s.scope name = some (.value (.number x))) :
    (var name : Meaning ρ ℚ).Agrees s := by
  have hlookup (t : Session ρ ℚ) (ht : s.Charged t) :
      (Run.lookup name).exec t = .done (.ok (.value (.number x)), t) := by
    rw [Run.exec_lookup, ht.lookup?, h]
  have hvalue (t : Session ρ ℚ) (ht : s.Charged t) :
      (var name).value.exec t = (literal x).value.exec t := by
    show (Run.lookup name >>= _).exec t = _
    rw [Run.exec_bind, hlookup t ht, Sampler.done_bind]
    rfl
  refine Run.Agrees.congr hvalue (fun t ht => ?_) (fun l hl => hl.congr hvalue) (agrees_literal s x)
  show (Run.lookup name >>= _).exec t = _
  rw [Run.exec_bind, hlookup t ht, Sampler.done_bind]
  rfl

/-! ## Operators -/

section Binary

variable {op : Operator} (hop : op.IsCongruent ρ) {limits : Limits ℚ}

include hop

/-- An operator that has a law has a value at all numbers that are drawn. -/
lemma exists_value_of_operate (hl : l.IsDrawnBy x.value s) (hl' : l'.IsDrawnBy y.value s)
    (h : Law.operate limits op l l' = .ok d) {t t₁ t₂ : Session ρ ℚ} (ht : s.Charged t)
    {a b : Number ρ} (ha : x.value.Leads IsRoll t (.ok (.number a)) t₁)
    (hb : y.value.Leads IsRoll t₁ (.ok (.number b)) t₂) : ∃ z, op.value? a b = some z := by
  have hpairs := Law.each_of_operate hop hl.numeric hl'.numeric h
  have hQ := Law.isInvariant_combine_isOk hop
  have hright := (hl.each_iff ht (Law.isInvariant_each fun o' => hQ.append_left o')).1 hpairs a t₁ ha
  have ht₁ := (hl.of_leads ht ha).1
  obtain ⟨c, hc⟩ := (hl'.each_iff ht₁ (hQ.append_right _)).1 hright b t₂ hb
  obtain ⟨_, _, z, hab, hz, -⟩ := combine_eq_ok_iff.1 hc
  cases hab
  exact ⟨z, hz⟩

/-- The values of an operator are drawn from its law. -/
lemma isDrawnBy_binary (hl : l.IsDrawnBy x.value s) (hl' : l'.IsDrawnBy y.value s)
    (h : Law.operate limits op l l' = .ok d) : d.IsDrawnBy (binary op x y).value s where
  numeric := Law.isNumeric_of_operate hl.numeric hl'.numeric h
  normalized := hl.normalized.operate hl'.normalized h
  results {t} ht {r t'} hr := by
    obtain ⟨a, t₁, ht₁, ha, hr⟩ := (hl.leads_bind ht).1 hr
    obtain ⟨b, t₂, ht₂, hb, hr⟩ := (hl'.leads_bind ht₁).1 hr
    obtain ⟨z, hz⟩ := exists_value_of_operate hop hl hl' h ht ha hb
    obtain ⟨r₀, hr₀, rfl⟩ := Run.leads_bind_pure.1 hr
    rw [Run.leads_ofExcept, Operator.apply, hz] at hr₀
    obtain ⟨rfl, rfl⟩ := hr₀
    exact ⟨ht₂, z, rfl⟩
  mean {t} ht {g} hg := by
    rw [Law.integral_operate hop hg h]
    refine hl.mean_bind ht (h := fun o => l'.integral fun o' => g (op.onOutcomes o o')) ?_ ?_
    · exact fun o p hop' => Law.integral_congr fun e _ =>
        Operator.isInvariant_onOutcomes_left hop hg e.1 o p hop'
    intro a t₁ ht₁ ha
    refine hl'.mean_bind ht₁ (h := fun o' => g (op.onOutcomes (single (.number a)) o'))
      (Operator.isInvariant_onOutcomes_right hop hg _) fun b t₂ ht₂ hb => ?_
    obtain ⟨z, hz⟩ := exists_value_of_operate hop hl hl' h ht ha hb
    rw [Run.mean_map, Run.mean_ofExcept (a := z) (by rw [Operator.apply, hz]),
      Operator.onOutcomes_number hz]
    rfl

/-- An operator between two expressions. -/
theorem agrees_binary (hlimits : s.limits.maxOutcomes = none) (hx : x.Agrees s) (hy : y.Agrees s) :
    (binary op x y).Agrees s := by
  unfold Agrees at hx hy ⊢
  refine Run.Agrees.bind hx ?_ fun l hl => ?_
  · exact fun t ht h => ⟨t, ht, h.of_withNumber⟩
  refine Run.Agrees.bind hy ?_ fun l' hl' => ?_
  · intro t ht h
    obtain ⟨_, t₁, ht₁, h⟩ := hl.exists_succeeds ht h
    exact ⟨t₁, ht₁, h.of_withNumber⟩
  refine Run.agrees_of_exec (x := Law.operate s.limits op l l') (fun t ht => ?_) (fun t ht => ?_)
    fun d hd => isDrawnBy_binary hop hl hl' hd
  · rw [Run.exec_bind, Run.exec_read, Sampler.done_bind, ht.limits]
    exact Run.exec_ofExcept _ t
  · have hQ := Law.isInvariant_combine_isOk hop
    rw [Law.operate_isOk_iff hlimits hop hl.numeric hl'.numeric]
    refine hl.succeeds_bind ht (Law.isInvariant_each fun o' => hQ.append_left o') fun a t₁ ht₁ => ?_
    refine hl'.succeeds_bind ht₁ (hQ.append_right _) fun b t₂ ht₂ => ?_
    rw [Run.succeeds_bind, Run.succeeds_ofExcept, and_iff_left fun _ _ _ => Run.succeeds_pure _]
    show _ ↔ ∃ c, Atom.number <$> op.apply a b = .ok c
    exact ⟨fun ⟨c, hc⟩ => ⟨_, Except.map_eq_ok_iff.2 ⟨c, hc, rfl⟩⟩, fun ⟨c, hc⟩ => by
      obtain ⟨z, hz, -⟩ := Except.map_eq_ok_iff.1 hc
      exact ⟨z, hz⟩⟩

end Binary

/-! ## Rolls -/

section Dice

variable {count sides : Meaning ρ ℚ} (hl : l.IsDrawnBy count.value s)
  (hl' : l'.IsDrawnBy sides.value s) (hrolls : s.limits.maxRolls = none)

/-- A roll goes on with the number of sides and then with the number of dice. -/
lemma faces_eq (count sides : Meaning ρ ℚ) : faces count sides =
    sides.value.withNumber fun y => Run.ofExcept (Dice.sides y) >>= fun m =>
      count.value.withNumber fun x => Run.ofExcept (Dice.count x) >>= fun n =>
        Run.roll n m >>= fun shown => pure (shown.map fun face => .int face.toInt32) := rfl

include hl hl'

/-- Nothing but dice is spent on the faces of a roll. -/
lemma charged_of_faces {t t' : Session ρ ℚ} (ht : s.Charged t)
    {r : Except (Stop ρ ℚ) (List (Number ρ))} (h : (faces count sides).Leads IsRoll t r t') :
    s.Charged t' := by
  rw [faces_eq] at h
  obtain ⟨y, t₁, ht₁, -, h₁⟩ := (hl'.leads_bind ht).1 h
  rcases Run.leads_bind.1 h₁ with ⟨m, t₂, hm, h₂⟩ | ⟨e, he, -⟩
  · obtain ⟨-, rfl⟩ := Run.leads_ofExcept.1 hm
    obtain ⟨x, t₃, ht₃, -, h₃⟩ := (hl.leads_bind ht₁).1 h₂
    rcases Run.leads_bind.1 h₃ with ⟨n, t₄, hn, h₄⟩ | ⟨e, he, -⟩
    · obtain ⟨-, rfl⟩ := Run.leads_ofExcept.1 hn
      obtain ⟨r₀, h₅, -⟩ := Run.leads_bind_pure.1 h₄
      obtain ⟨rfl, -⟩ := Run.leads_roll.1 h₅
      exact ht₃.spend n
    · obtain ⟨-, rfl⟩ := Run.leads_ofExcept.1 he
      exact ht₃
  · obtain ⟨-, rfl⟩ := Run.leads_ofExcept.1 he
    exact ht₁

include hrolls

/-- A roll succeeds if its operands are numbers of dice and of sides.

**Proof sketch.** The number of sides is evaluated first, then the number of dice. Each is sampled
from its law, so the run succeeds exactly if every outcome of the law does (`succeeds_bind`): an
outcome for the number of sides, if it is one and if every outcome for the number of dice is one as
well. The second condition does not depend on the first outcome, of which there is at least one. -/
lemma succeeds_faces {t : Session ρ ℚ} (ht : s.Charged t) : (faces count sides).Succeeds t ↔
    (l.Each fun o _ => Dice.IsCount o) ∧ l'.Each fun o _ => Dice.IsSides o := by
  have hcount (y : Number ρ) (m : Nat) (t₁ : Session ρ ℚ) (ht₁ : s.Charged t₁) :
      (count.value.withNumber fun x => Run.ofExcept (Dice.count x) >>= fun n =>
        Run.roll n m >>= fun shown => pure (shown.map fun face =>
          (.int face.toInt32 : Number ρ))).Succeeds t₁ ↔ l.Each fun o _ => Dice.IsCount o := by
    refine hl.succeeds_bind ht₁ Dice.isInvariant_isCount fun x t₂ ht₂ => ?_
    rw [Run.succeeds_bind, Run.succeeds_ofExcept, and_iff_left]
    · exact ⟨fun ⟨n, hn⟩ => ⟨x, n, rfl, hn⟩, fun ⟨_, n, hx, hn⟩ => by cases hx; exact ⟨n, hn⟩⟩
    · intro n t₃ hn
      obtain ⟨-, rfl⟩ := Run.leads_ofExcept_ok.1 hn
      exact Run.succeeds_bind.2 ⟨Run.succeeds_roll (by rw [ht₂.limits, hrolls]) n m,
        fun _ _ _ => Run.succeeds_pure _⟩
  rw [faces_eq, hl'.succeeds_bind (Q := fun o' => Dice.IsSides o' ∧ l.Each fun o _ => Dice.IsCount o)
    ht (Dice.isInvariant_isSides.comp (· ∧ _))]
  · constructor
    · intro h
      obtain ⟨e, he⟩ := hl'.normalized.exists_entry
      exact ⟨(h e he).2, fun e he => (h e he).1⟩
    · exact fun ⟨h, h'⟩ e he => ⟨h' e he, h⟩
  · intro y t₁ ht₁
    rw [Run.succeeds_bind, Run.succeeds_ofExcept]
    constructor
    · rintro ⟨⟨m, hm⟩, h⟩
      exact ⟨⟨y, m, rfl, hm⟩, (hcount y m t₁ ht₁).1 (h m t₁ (Run.leads_ofExcept_ok.2 ⟨hm, rfl⟩))⟩
    · rintro ⟨⟨_, m, hy, hm⟩, h⟩
      cases hy
      refine ⟨⟨m, hm⟩, fun m' t₂ hm' => ?_⟩
      obtain ⟨-, rfl⟩ := Run.leads_ofExcept_ok.1 hm'
      exact (hcount y m' t₂ ht₁).2 h

/-- The mean of a function of the faces of a roll integrates over its operands. -/
lemma mean_faces {t : Session ρ ℚ} (ht : s.Charged t) (hcount : l.Each fun o _ => Dice.IsCount o)
    (hsides : l'.Each fun o _ => Dice.IsSides o) (F : List (Number ρ) → ℚ) :
    (faces count sides).mean t F =
      l.integral fun o => l'.integral fun o' => Dice.average F (o ++ o') := by
  have havg := Dice.isInvariant_average F
  rw [faces_eq, Law.integral_comm]
  refine hl'.mean_bind ht (h := fun o' => l.integral fun o => Dice.average F (o ++ o')) ?_ ?_
  · exact fun o p h => Law.integral_congr fun e _ => havg.append_right e.1 o p h
  intro y t₁ ht₁ hy
  obtain ⟨_, m, hy', hm⟩ := (hl'.each_iff ht Dice.isInvariant_isSides).1 hsides y t₁ hy
  cases hy'
  refine Run.mean_bind_ofExcept hm ?_
  refine hl.mean_bind ht₁ (h := fun o => Dice.average F (o ++ single (.number y)))
    (havg.append_left _) fun x t₂ ht₂ hx => ?_
  obtain ⟨_, n, hx', hn⟩ := (hl.each_iff ht₁ Dice.isInvariant_isCount).1 hcount x t₂ hx
  cases hx'
  refine Run.mean_bind_ofExcept hn ?_
  rw [Run.mean_map, Run.mean_roll (by rw [ht₂.limits, hrolls]), Dice.average_eq F hn hm]

/-- The sums of a roll are drawn from its law. -/
lemma isDrawnBy_dice (hadd : Operator.IsCongruent ρ .add) {limits : Limits ℚ}
    (h : Dice.law limits l l' = .ok d) : d.IsDrawnBy (dice count sides).value s where
  numeric := Dice.isNumeric_of_law hl.numeric hl'.numeric h
  normalized := Dice.isNormalized_of_law hl.normalized hl'.normalized h
  results {t} ht {r t'} hr := by
    have hok := Dice.each_of_law hl.numeric hl'.numeric hl.normalized hl'.normalized h
    obtain ⟨r₀, hr₀, rfl⟩ := Run.leads_bind_pure.1 hr
    obtain ⟨xs, rfl⟩ := (succeeds_faces hl hl' hrolls ht).2 hok _ _ hr₀
    exact ⟨charged_of_faces hl hl' ht hr₀, _, rfl⟩
  mean {t} ht {g} hg := by
    obtain ⟨hcount, hsides⟩ := Dice.each_of_law hl.numeric hl'.numeric hl.normalized hl'.normalized h
    rw [Dice.integral_law hadd hg h, ← mean_faces hl hl' hrolls ht hcount hsides]
    exact Run.mean_map _ _

omit hl hl' hrolls in
/-- What is computed from the laws of the operands of a roll agrees with what is sampled from its
faces if it does so whenever the operands are drawn from their laws. -/
lemma agrees_of_faces {α β : Type} {sample : Run ρ ℚ α} {f : Law ρ ℚ → Law ρ ℚ → Run ρ ℚ β}
    {R : β → Prop} (hcount : count.Agrees s) (hsides : sides.Agrees s)
    (hsample : ∀ t, sample.Succeeds t → (faces count sides).Succeeds t)
    (hf : ∀ l l', count.HasLaw s l → sides.HasLaw s l' → Run.Agrees s sample (f l l') R) :
    Run.Agrees s sample (count.law >>= fun l => sides.law >>= fun l' => f l l') R := by
  unfold Agrees at hcount hsides
  refine Run.Agrees.bind hcount.with_exec ?_ fun l hl => Run.Agrees.bind hsides.with_exec ?_
    fun l' hl' => hf l l' hl hl'
  · intro t ht h
    -- the number of dice is sampled after the number of sides
    have hfaces := hsample t h
    rw [faces_eq] at hfaces
    obtain ⟨l', hl'⟩ := Run.Agrees.exists_result hsides ht hfaces.of_withNumber
    obtain ⟨y, t₁, ht₁, h₁⟩ := hl'.exists_succeeds ht hfaces
    obtain ⟨hm, h₂⟩ := Run.succeeds_bind.1 h₁
    obtain ⟨m, hm⟩ := Run.succeeds_ofExcept.1 hm
    exact ⟨t₁, ht₁, (h₂ m t₁ (Run.leads_ofExcept_ok.2 ⟨hm, rfl⟩)).of_withNumber⟩
  · exact fun t ht h => ⟨t, ht, (hsample t h).of_withNumber⟩

omit hl hl' in
/-- The sum of a roll. -/
theorem agrees_dice (hadd : Operator.IsCongruent ρ .add) (hlimits : s.limits.maxOutcomes = none)
    (hcount : count.Agrees s) (hsides : sides.Agrees s) : (dice count sides).Agrees s := by
  refine agrees_of_faces hcount hsides (fun t => Run.succeeds_map.1) fun l l' h h' => ?_
  obtain ⟨hl, -⟩ := h
  obtain ⟨hl', -⟩ := h'
  refine Run.agrees_of_exec (x := Dice.law s.limits l l') (fun t ht => ?_) (fun t ht => ?_)
    fun d hd => isDrawnBy_dice hl hl' hrolls hadd hd
  · rw [Run.exec_bind, Run.exec_read, Sampler.done_bind, ht.limits]
    exact Run.exec_ofExcept _ t
  · rw [Dice.law_isOk_iff hlimits hadd hl.numeric hl'.numeric hl.normalized hl'.normalized,
      ← succeeds_faces hl hl' hrolls ht]
    exact Run.succeeds_map

end Dice

/-! ## Rolls with certain operands -/

/-- All outcomes of the law of an expression that needs no dice are equal. -/
lemma exists_number_of_isFixed (hx : Run.IsFixed s x.value) (hl : l.IsDrawnBy x.value s) :
    ∃ a, ∀ e ∈ l.entries, compare (single (.number a)) e.1 = .eq := by
  obtain ⟨r, hr⟩ := hx
  have hs := s.charged_self
  obtain ⟨a, t, -, ha⟩ := hl.exists_leads hs
  refine ⟨a, fun e he => ?_⟩
  have hinv : IsInvariant fun o => compare (single (.number a)) o = .eq := fun o p h =>
    congrArg (· = Ordering.eq) (Std.TransCmp.congr_right h)
  refine (hl.each_iff hs hinv).2 (fun b t' hb => ?_) e he
  obtain ⟨ha, -⟩ := (Run.leads_iff_of_done (hr s hs)).1 ha
  obtain ⟨hb, -⟩ := (Run.leads_iff_of_done (hr s hs)).1 hb
  cases ha.trans hb.symm
  exact Std.ReflCmp.compare_self

/-- The number of dice of an expression that needs none. -/
lemma exists_count_of_isFixed (hx : Run.IsFixed s x.value) (hl : l.IsDrawnBy x.value s)
    (hcount : l.Each fun o _ => Dice.IsCount o) :
    ∃ n, ∀ e ∈ l.entries, ∃ a, e.1 = single (.number a) ∧ Dice.count (μ := ℚ) a = .ok n := by
  obtain ⟨b, hb⟩ := exists_number_of_isFixed hx hl
  refine ⟨Dice.countAt (single (.number b)), fun e he => ?_⟩
  obtain ⟨a, n, ha, hn⟩ := hcount e he
  rw [Dice.isInvariant_countAt _ _ (hb e he), ha, Dice.countAt_eq hn]
  exact ⟨a, rfl, hn⟩

/-- The number of sides of an expression that needs no dice. -/
lemma exists_sides_of_isFixed (hx : Run.IsFixed s x.value) (hl : l.IsDrawnBy x.value s)
    (hsides : l.Each fun o _ => Dice.IsSides o) :
    ∃ m, ∀ e ∈ l.entries, ∃ a, e.1 = single (.number a) ∧ Dice.sides (μ := ℚ) a = .ok m := by
  obtain ⟨b, hb⟩ := exists_number_of_isFixed hx hl
  obtain ⟨e₀, he₀⟩ := hl.normalized.exists_entry
  obtain ⟨a₀, m, ha₀, hm⟩ := hsides e₀ he₀
  have hbm := hb e₀ he₀
  rw [ha₀, compare_number_eq_iff] at hbm
  refine ⟨m, fun e he => ?_⟩
  obtain ⟨a, ha⟩ := (hl.numeric e he).1
  have hba := hb e he
  rw [ha, compare_number_eq_iff] at hba
  exact ⟨a, ha, (Dice.sides_congr hba).1 ((Dice.sides_congr hbm).2 hm)⟩

/-- The faces of a roll whose operands need no dice are drawn from the laws of its dice.

**Proof sketch.** Operands that need no dice have one number of dice `n` and one number of sides `m`
under all their outcomes. Hence there are `n` laws, each that of a die with `m` sides
(`Dice.integral_of_certain_laws`), and the mean of the greatest face of a roll is the average over
all rolls of `n` such dice. The integrals over the operands are integrals of a constant. -/
lemma areDrawnBy_dice {count sides : Meaning ρ ℚ} (hl : l.IsDrawnBy count.value s)
    (hl' : l'.IsDrawnBy sides.value s) (hrolls : s.limits.maxRolls = none)
    (hcount : Run.IsFixed s count.value) (hsides : Run.IsFixed s sides.value) {ls : List (Law ρ ℚ)}
    (h : Dice.laws s.limits l l' = .ok ls) : Law.AreDrawnBy ls (dice count sides).items s where
  pos := Dice.pos_of_laws hl.numeric.pos hl'.numeric.pos h
  normalized := Dice.isNormalized_of_laws hl.normalized hl'.normalized h
  results {t} ht {r t'} hr := by
    obtain ⟨hcount, hsides, -⟩ := Dice.of_laws_eq_ok h
    obtain ⟨r₀, hr₀, rfl⟩ := Run.leads_bind_pure.1 hr
    obtain ⟨xs, rfl⟩ := (succeeds_faces hl hl' hrolls ht).2 ⟨hcount, hsides⟩ _ _ hr₀
    exact ⟨charged_of_faces hl hl' ht hr₀, xs, rfl⟩
  mean {t} ht {g} hg x := by
    obtain ⟨hcount', hsides', -⟩ := Dice.of_laws_eq_ok h
    obtain ⟨n, hn⟩ := exists_count_of_isFixed hcount hl hcount'
    obtain ⟨m, hm⟩ := exists_sides_of_isFixed hsides hl' hsides'
    have hcountAt : ∀ e ∈ l.entries, Dice.countAt e.1 = n := fun e he => by
      obtain ⟨a, ha, hna⟩ := hn e he
      rw [ha, Dice.countAt_eq hna]
    have hdieOf : ∀ e ∈ l'.entries, Dice.dieOf e.1 = .uniform m := fun e he => by
      obtain ⟨b, hb, hmb⟩ := hm e he
      rw [hb, Dice.dieOf_eq hmb]
    obtain ⟨hlength, hdice⟩ :=
      Dice.integral_of_certain_laws hl.normalized hl'.normalized hcountAt hdieOf h
    rw [Law.maximumIntegral_eq_rollAverage hg hdice, hlength]
    refine (Run.mean_map _ _).trans ((mean_faces hl hl' hrolls ht hcount' hsides' _).trans ?_)
    refine Eq.trans (Law.integral_congr fun e he => ?_) (hl.normalized.integral_const _)
    refine Eq.trans (Law.integral_congr fun e' he' => ?_) (hl'.normalized.integral_const _)
    obtain ⟨a, ha, hna⟩ := hn e he
    obtain ⟨b, hb, hmb⟩ := hm e' he'
    rw [ha, hb, Dice.average_eq _ hna hmb]
    simp only [Value.greatestFrom_number]

/-- The dice of a roll whose operands need no dice. -/
theorem itemsAgree_dice {count sides : Meaning ρ ℚ} (hrolls : s.limits.maxRolls = none)
    (hlimits : s.limits.maxOutcomes = none) (hcount : count.Agrees s) (hsides : sides.Agrees s)
    (hcount' : Run.IsFixed s count.value) (hsides' : Run.IsFixed s sides.value) : (dice count sides).ItemsAgree s := by
  refine agrees_of_faces hcount hsides (fun t => Run.succeeds_map.1) fun l l' h h' => ?_
  obtain ⟨hl, -⟩ := h
  obtain ⟨hl', -⟩ := h'
  refine Run.agrees_of_exec (x := Dice.laws s.limits l l') (fun t ht => ?_) (fun t ht => ?_)
    fun ls hls => areDrawnBy_dice hl hl' hrolls hcount' hsides' hls
  · rw [Run.exec_bind, Run.exec_read, Sampler.done_bind, ht.limits]
    exact Run.exec_ofExcept _ t
  · rw [Dice.laws_isOk_iff hlimits, ← succeeds_faces hl hl' hrolls ht]
    exact Run.succeeds_map

/-! ## Sequences and maxima -/

/-- A number that is drawn first, and a list that is drawn after it. -/
lemma areDrawnBy_cons {act : Run ρ ℚ (Value ρ ℚ)} {acts : Run ρ ℚ (List (Value ρ ℚ))}
    {ls : List (Law ρ ℚ)} (hl : l.IsDrawnBy act s) (hls : Law.AreDrawnBy ls acts s) :
    Law.AreDrawnBy (l :: ls) (act >>= fun v => acts >>= fun vs => pure (v :: vs)) s where
  pos := List.forall_mem_cons.2 ⟨hl.numeric.pos, hls.pos⟩
  normalized := List.forall_mem_cons.2 ⟨hl.normalized, hls.normalized⟩
  results {t} ht {r t'} hr := by
    rcases Run.leads_bind.1 hr with ⟨v, t₁, hv, h₁⟩ | ⟨e, he, -⟩
    · obtain ⟨ht₁, x, rfl⟩ := hl.of_leads ht hv
      obtain ⟨r₀, h₂, rfl⟩ := Run.leads_bind_pure.1 h₁
      obtain ⟨ht', xs, rfl⟩ := hls.results ht₁ h₂
      exact ⟨ht', x :: xs, rfl⟩
    · obtain ⟨-, x, hx⟩ := hl.results ht he
      cases hx
  mean {t} ht {g} hg x := by
    have hinner := Law.isInvariant_maximumIntegral hg ls
    show _ = l.integral fun o => Law.maximumIntegral g ls (greater (single (.number x)) o)
    rw [← hl.mean ht fun o p h => hinner _ _ (compare_greater Std.ReflCmp.compare_self h)]
    refine Run.mean_bind fun v t₁ hv => ?_
    obtain ⟨ht₁, y, rfl⟩ := hl.of_leads ht hv
    rw [Run.mean_map]
    show acts.mean t₁ (fun vs => g (vs.foldl _ (greater (single (.number x)) (single (.number y))))) = _
    rw [show (Value.number y : Value ρ ℚ).outcome = single (.number y) from rfl, greater_number]
    exact hls.mean ht₁ hg (Number.max x y)

/-- A sequence. -/
theorem itemsAgree_sequence {xs : List (Meaning ρ ℚ)} (hxs : ∀ x ∈ xs, x.Agrees s) :
    (sequence xs).ItemsAgree s := by
  show Run.Agrees s (xs.mapM (·.value)) (xs.mapM (·.law)) fun ls =>
    Law.AreDrawnBy ls (xs.mapM (·.value)) s
  induction xs with
  | nil =>
    refine Run.agrees_pure (fun _ _ => Run.succeeds_pure _) ⟨by simp, by simp, ?_, ?_⟩
    · rintro t ht r t' h
      obtain ⟨rfl, rfl⟩ := Run.leads_pure.1 h
      exact ⟨ht, [], rfl⟩
    · exact fun _ _ _ x => Run.mean_pure _ _ _
  | cons x xs ih =>
    rw [List.forall_mem_cons] at hxs
    have hx := hxs.1
    unfold Agrees at hx
    simp only [List.mapM_cons]
    refine Run.Agrees.bind hx ?_ fun l hl => Run.Agrees.bind (ih hxs.2) ?_ fun ls hls => ?_
    · exact fun t ht h => ⟨t, ht, (Run.succeeds_bind.1 h).1⟩
    · intro t ht h
      obtain ⟨a, t₁, ht₁, ha⟩ := hl.exists_leads ht
      exact ⟨t₁, ht₁, Run.succeeds_map.1 ((Run.succeeds_bind.1 h).2 _ t₁ ha)⟩
    · refine Run.agrees_pure (fun t ht => ?_) (areDrawnBy_cons hl hls)
      exact fun r t' hr => by
        obtain ⟨-, xs, rfl⟩ := (areDrawnBy_cons hl hls).results ht hr
        exact ⟨_, rfl⟩

/-- The greatest of the components of an expression, sampled. -/
lemma max_value_eq (x : Meaning ρ ℚ) : Builtin.value (.ofList [x]) .max =
    x.items >>= fun vs => Run.ofExcept (vs.mapM Value.toNumber) >>= fun xs =>
      pure (.number (xs.foldl Number.max .negInfinity)) := rfl

/-- The greatest of the components of an expression, as a law. -/
lemma max_exact_eq (x : Meaning ρ ℚ) : Builtin.exact (.ofList [x]) .max =
    x.laws >>= fun ls => Run.read (·.limits) >>= fun limits =>
      Run.ofExcept (Law.maximum limits ls) := rfl

section Max

variable {ls : List (Law ρ ℚ)} (hls : Law.AreDrawnBy ls x.items s) {t t' : Session ρ ℚ}
  (ht : s.Charged t)

include hls ht

/-- The greatest of numbers that are drawn always exists. -/
lemma leads_max {r : Except (Stop ρ ℚ) (Value ρ ℚ)}
    (h : (Builtin.value (.ofList [x]) .max).Leads IsRoll t r t') :
    s.Charged t' ∧ ∃ y, r = .ok (.number y) := by
  rw [max_value_eq] at h
  rcases Run.leads_bind.1 h with ⟨vs, t₁, hvs, h₁⟩ | ⟨e, he, -⟩
  · obtain ⟨ht₁, xs, hxs⟩ := hls.results ht hvs
    obtain rfl := Except.ok.inj hxs
    rw [Value.mapM_toNumber] at h₁
    obtain ⟨rfl, rfl⟩ := Run.leads_pure.1 h₁
    exact ⟨ht₁, _, rfl⟩
  · obtain ⟨-, xs, hxs⟩ := hls.results ht he
    cases hxs

/-- The mean of a function of the greatest of numbers that are drawn. -/
lemma mean_max {g : Outcome ρ → ℚ} (hg : IsInvariant g) :
    (Builtin.value (.ofList [x]) .max).mean t (fun v => g v.outcome) =
      Law.maximumIntegral g ls (single (.number .negInfinity)) := by
  rw [← hls.mean ht hg, max_value_eq]
  refine Run.mean_bind fun vs t₁ hvs => ?_
  obtain ⟨-, xs, hxs⟩ := hls.results ht hvs
  obtain rfl := Except.ok.inj hxs
  rw [Value.mapM_toNumber, Value.greatestFrom_number]
  exact Run.mean_pure _ t₁ _

end Max

/-- The greatest of a list of numbers that are drawn is drawn from the law of a maximum. -/
lemma isDrawnBy_max {ls : List (Law ρ ℚ)} (hls : Law.AreDrawnBy ls x.items s)
    (h : Law.maximum s.limits ls = .ok d) :
    d.IsDrawnBy (Builtin.value (.ofList [x]) .max) s where
  numeric := Law.isNumeric_of_maximum hls.pos h
  normalized := Law.isNormalized_of_maximum hls.normalized h
  results ht _ _ hr := leads_max hls ht hr
  mean ht _ hg := by rw [mean_max hls ht hg, Law.integral_maximum hg h]

/-- The maximum of the components of an expression. -/
theorem agrees_max (hlimits : s.limits.maxOutcomes = none) (hx : x.ItemsAgree s) :
    Run.Agrees s (Builtin.value (.ofList [x]) .max) (Builtin.exact (.ofList [x]) .max) fun l =>
      l.IsDrawnBy (Builtin.value (.ofList [x]) .max) s := by
  unfold ItemsAgree at hx
  rw [max_exact_eq]
  refine Run.Agrees.bind hx ?_ fun ls hls => ?_
  · intro t ht h
    rw [max_value_eq] at h
    exact ⟨t, ht, (Run.succeeds_bind.1 h).1⟩
  refine Run.agrees_of_exec (x := Law.maximum s.limits ls) (fun t ht => ?_) (fun t ht => ?_)
    fun d hd => isDrawnBy_max hls hd
  · rw [Run.exec_bind, Run.exec_read, Sampler.done_bind, ht.limits]
    exact Run.exec_ofExcept _ t
  · refine iff_of_true (fun r t' hr => ?_) (Law.exists_maximum hlimits ls)
    obtain ⟨-, y, hy⟩ := leads_max hls ht hr
    exact ⟨_, hy⟩

/-! ## Conditionals -/

section Branch

variable {test yes no : Meaning ρ ℚ}

/-- The arguments of an `if`. -/
def branchArgs {α : Type} (test yes no : α) : Slots α := ⟨[test], [("else", [no]), ("then", [yes])]⟩

/-- The branch that a test chooses, sampled. -/
lemma branch_value_eq {μ : Type} [Mass μ] (test yes no : Meaning ρ μ) :
    Builtin.value (branchArgs test yes no) .branch =
      test.value.withNumber fun x => if x.isZero then no.value else yes.value := by
  refine congrArg (Run.withNumber test.value) (funext fun x => ?_)
  cases x.isZero <;> rfl

/-- The law of an `if` mixes the branches by the law of the test. -/
lemma branch_exact_eq {μ : Type} [Mass μ] (test yes no : Meaning ρ μ) :
    Builtin.exact (branchArgs test yes no) .branch = test.law >>= fun l =>
      Builtin.mixBranch (branchArgs test yes no) "then" (Builtin.chanceOfNonzero l) .empty >>=
        fun mixture => Builtin.mixBranch (branchArgs test yes no) "else"
          (l.massOf (.number .zero)) mixture := rfl

/-- Adding a branch to a mixture takes the law of the branch if it has a chance. -/
lemma mixBranch_eq {μ : Type} [Mass μ] {x : Meaning ρ μ} {args : Slots (Meaning ρ μ)}
    {keyword : String} (hx : args.firstOf (ρ := ρ) (μ := μ) keyword = .ok x) (chance : μ)
    (mixture : Law ρ μ) :
    Builtin.mixBranch args keyword chance mixture =
      if Mass.isPositive chance then x.law >>= fun l => pure (mixture.addScaled chance l)
      else pure mixture := by
  unfold Builtin.mixBranch
  rw [hx]
  rfl

/-- A branch of a mixture agrees if its law is needed only where the sampled computation succeeds
through it. -/
lemma agrees_mixBranch {α β : Type} {sample : Run ρ ℚ α} {f : Law ρ ℚ → Run ρ ℚ β} {R : β → Prop}
    {args : Slots (Meaning ρ ℚ)} {keyword : String} (hx : args.firstOf (ρ := ρ) (μ := ℚ) keyword = .ok x)
    (hagrees : x.Agrees s) {chance : ℚ} {mixture : Law ρ ℚ}
    (hpart : Mass.isPositive chance = true → ∀ t, s.Charged t → sample.Succeeds t →
      ∃ t₁, s.Charged t₁ ∧ x.value.Succeeds t₁)
    (hf : ∀ l, (Mass.isPositive chance = true → l.IsDrawnBy x.value s) →
      Run.Agrees s sample (f (mixture.addPositive chance l)) R) :
    Run.Agrees s sample (Builtin.mixBranch args keyword chance mixture >>= f) R := by
  unfold Agrees at hagrees
  rw [mixBranch_eq hx]
  by_cases hpos : Mass.isPositive chance = true
  · rw [if_pos hpos, bind_assoc]
    refine Run.Agrees.bind hagrees (hpart hpos) fun l hl => ?_
    have h := hf l fun _ => hl
    rw [Law.addPositive, if_pos hpos] at h
    exact h
  · rw [if_neg hpos]
    have h := hf .empty fun hpos' => absurd hpos' hpos
    rw [Law.addPositive, if_neg hpos] at h
    exact h

/-- The branch that a test chooses is drawn from the mixture of the branches.

**Proof sketch.** A branch that some sample chooses has a positive chance (`hchosen`), so that its
law is known to be drawn from it. The mean of a sample is then, for each outcome of the test, the
integral over the law of the branch that this outcome chooses, and the integral over a mixture is
the same sum (`Law.integral_mixture`). -/
lemma isDrawnBy_branch (hl : l.IsDrawnBy test.value s) {l₁ l₀ : Law ρ ℚ}
    (h₁ : Mass.isPositive (Builtin.chanceOfNonzero l) = true → l₁.IsDrawnBy yes.value s)
    (h₀ : Mass.isPositive (l.massOf (.number .zero)) = true → l₀.IsDrawnBy no.value s) :
    (l.mixture l₁ l₀).IsDrawnBy (Builtin.value (branchArgs test yes no) .branch) s := by
  have hzero := isInvariant_compare_eq (single (.number (.zero : Number ρ)))
  -- a branch that is chosen in a sample has a chance
  have hchosen {t t₁ : Session ρ ℚ} (ht : s.Charged t) {x : Number ρ}
      (hx : test.value.Leads IsRoll t (.ok (.number x)) t₁) :
      if x.isZero then l₀.IsDrawnBy no.value s else l₁.IsDrawnBy yes.value s := by
    split
    · next hxz =>
      rw [Number.isZero_iff, ← compare_number_eq_iff] at hxz
      refine h₀ ((Mass.isPositive_iff _).2 ((Law.massOf_zero_pos_iff hl.numeric.pos).2 fun h => ?_))
      exact (hl.each_iff ht (hzero.comp Not)).1 h x t₁ hx hxz
    · next hxz =>
      rw [Number.isZero_iff, ← compare_number_eq_iff] at hxz
      refine h₁ ((Mass.isPositive_iff _).2 ((Law.chanceOfNonzero_pos_iff hl.numeric.pos).2 fun h => ?_))
      exact hxz ((hl.each_iff ht hzero).1 h x t₁ hx)
  refine ⟨?_, ?_, fun {t} ht {r t'} hr => ?_, fun {t} ht {g} hg => ?_⟩
  · exact (Law.isNumeric_empty.addPositive fun h => (h₁ h).numeric).addPositive
      fun h => (h₀ h).numeric
  · exact Law.isNormalized_mixture hl.normalized (fun h => (h₁ h).normalized)
      fun h => (h₀ h).normalized
  · rw [branch_value_eq] at hr
    obtain ⟨x, t₁, ht₁, hx, h⟩ := (hl.leads_bind ht).1 hr
    have hdrawn := hchosen ht hx
    split at h
    · next hxz =>
      rw [if_pos hxz] at hdrawn
      exact hdrawn.results ht₁ h
    · next hxz =>
      rw [if_neg hxz] at hdrawn
      exact hdrawn.results ht₁ h
  · rw [branch_value_eq, Law.integral_mixture hg hl.normalized.nonneg]
    refine hl.mean_bind ht (fun o p h => by unfold indicator; rw [compare_congr_left h])
      fun x t₁ ht₁ hx => ?_
    have hdrawn := hchosen ht hx
    split
    · next hxz =>
      rw [if_pos hxz] at hdrawn
      rw [Number.isZero_iff, ← compare_number_eq_iff] at hxz
      rw [hdrawn.mean ht₁ hg, indicator_of_eq hxz]
      ring
    · next hxz =>
      rw [if_neg hxz] at hdrawn
      rw [Number.isZero_iff, ← compare_number_eq_iff] at hxz
      rw [hdrawn.mean ht₁ hg, indicator_of_ne hxz]
      ring

/-- A conditional.

**Proof sketch.** The exact branch is the law of the test followed by the two branches that are
mixed in. A branch is evaluated only if it has a positive chance; then some sample of the test
chooses it, and if samples of the conditional succeed, so do those of the branch. In the end the law
is drawn from by `isDrawnBy_branch`. -/
theorem agrees_branch (htest : test.Agrees s) (hyes : yes.Agrees s) (hno : no.Agrees s) :
    Run.Agrees s (Builtin.value (branchArgs test yes no) .branch)
      (Builtin.exact (branchArgs test yes no) .branch)
      fun l => l.IsDrawnBy (Builtin.value (branchArgs test yes no) .branch) s := by
  have hzero := isInvariant_compare_eq (single (.number (.zero : Number ρ)))
  have hexact : Builtin.exact (branchArgs test yes no) .branch = test.law >>= fun l =>
      Builtin.mixBranch (branchArgs test yes no) "then" (Builtin.chanceOfNonzero l) .empty >>=
        fun mixture => Builtin.mixBranch (branchArgs test yes no) "else"
          (l.massOf (.number .zero)) mixture >>= pure := by
    simp only [branch_exact_eq, bind_pure]
  unfold Agrees at htest
  rw [hexact]
  refine Run.Agrees.bind htest ?_ fun l hl => ?_
  · intro t ht h
    rw [branch_value_eq] at h
    exact ⟨t, ht, h.of_withNumber⟩
  refine agrees_mixBranch (x := yes) rfl hyes (fun hpos t ht h => ?_) fun l₁ h₁ =>
    agrees_mixBranch (x := no) rfl hno (fun hpos t ht h => ?_) fun l₀ h₀ =>
      Run.agrees_pure (fun t ht r t' hr => ?_) (isDrawnBy_branch hl h₁ h₀)
  · rw [Mass.isPositive_iff, Law.chanceOfNonzero_pos_iff hl.numeric.pos, hl.each_iff ht hzero] at hpos
    push Not at hpos
    obtain ⟨x, t₁, hx, hne⟩ := hpos
    rw [branch_value_eq] at h
    obtain ⟨ht₁, h⟩ := hl.succeeds_of_leads ht h hx
    rw [ne_eq, compare_number_eq_iff, ← Number.isZero_iff] at hne
    rw [if_neg hne] at h
    exact ⟨t₁, ht₁, h⟩
  · rw [Mass.isPositive_iff, Law.massOf_zero_pos_iff hl.numeric.pos,
      hl.each_iff ht (hzero.comp Not)] at hpos
    push Not at hpos
    obtain ⟨x, t₁, hx, heq⟩ := hpos
    rw [branch_value_eq] at h
    obtain ⟨ht₁, h⟩ := hl.succeeds_of_leads ht h hx
    rw [compare_number_eq_iff, ← Number.isZero_iff] at heq
    rw [if_pos heq] at h
    exact ⟨t₁, ht₁, h⟩
  · obtain ⟨-, x, hx⟩ := (isDrawnBy_branch hl h₁ h₀).results ht hr
    exact ⟨_, hx⟩

end Branch

end Meaning

end DiceCalculus
