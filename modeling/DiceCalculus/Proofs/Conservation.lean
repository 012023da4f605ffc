import DiceCalculus.Proofs.Law.Sum
import DiceCalculus.Proofs.Run.Contract
import DiceCalculus.Proofs.Sessions
import DiceCalculus.Roller

set_option autoImplicit false
set_option relaxedAutoImplicit false

/-!
# Probability is conserved

Read with rational masses, an evaluation neither loses nor invents probability: from a session in
which every law that a program can reach has masses that are not negative and sum up to one, every
law that is computed, bound or taken as a value has such masses too.

## Main definitions

* `Session.IsNormalized` — the laws within reach of the scope and of the registered functions have
  mass one.
* `Contract.normalized` — the contract of an evaluation that keeps it so.

## Main results

* `Law.isNormalized_mixture` — the mixture of the branches of an `if`.
* `Contract.isSound_normalized` — every primitive step keeps the contract.
* `evaluation_conserves_probability` — all answers of all expressions, and no evaluation is
  refused for the mass of its law.

## Design

The frames within reach change as an evaluation goes into blocks and functions. What is kept is
therefore said about every frame: one whose laws have mass one keeps having only such laws, and a
frame that is made later starts without any.
-/

namespace DiceCalculus

variable {ρ : Type} [Scalar ρ]

open Outcome

/-! ## The mixture of two branches -/

namespace Law

variable {test l l' : Law ρ ℚ}

/-- The chance that a test is not zero is the integral of that event. -/
lemma chanceOfNonzero_eq (test : Law ρ ℚ) : Builtin.chanceOfNonzero test =
    test.integral fun o => 1 - indicator (single (.number .zero)) o := by
  unfold Builtin.chanceOfNonzero integral
  refine (Table.foldl_add_eq (0 : ℚ) _).trans ?_
  rw [zero_add]
  induction test.entries with
  | nil => rfl
  | cons e es ih =>
    have hne : (e.1 != single (.number .zero)) =
        !(compare e.1 (single (.number .zero)) == .eq) := rfl
    rw [List.map_cons, List.sum_cons, ← ih, List.filter_cons, hne]
    by_cases h : compare e.1 (single (.number .zero)) = .eq
    · simp [h, indicator_of_eq h]
    · simp [h, indicator_of_ne h]

/-- The chance that a test is not zero is not negative. -/
lemma chanceOfNonzero_nonneg (htest : test.Each fun _ p => 0 ≤ p) :
    0 ≤ Builtin.chanceOfNonzero test := by
  rw [chanceOfNonzero_eq]
  refine integral_nonneg htest fun e _ => ?_
  unfold indicator
  split <;> norm_num

/-- A test is zero or it is not. -/
lemma chanceOfNonzero_add (test : Law ρ ℚ) :
    Builtin.chanceOfNonzero test + test.massOf (.number .zero) = test.integral fun _ => 1 := by
  show _ + test.mass _ = _
  rw [chanceOfNonzero_eq, mass_eq_integral, ← integral_add]
  simp only [sub_add_cancel]

/-- A test has a chance not to be zero unless all its outcomes are zero. -/
lemma chanceOfNonzero_pos_iff (htest : test.Each fun _ p => 0 < p) :
    0 < Builtin.chanceOfNonzero test ↔
      ¬test.Each fun o _ => compare o (single (.number .zero)) = .eq := by
  have hnonneg := chanceOfNonzero_nonneg fun e he => (htest e he).le
  rw [hnonneg.lt_iff_ne', ne_eq, not_iff_not, chanceOfNonzero_eq, integral_eq_zero_iff htest]
  · refine forall₂_congr fun e _ => ?_
    unfold indicator
    by_cases h : compare e.1 (single (.number .zero)) = .eq <;> simp [h]
  · intro e _
    unfold indicator
    split <;> norm_num

/-- A test has a chance to be zero unless none of its outcomes is. -/
lemma massOf_zero_pos_iff (htest : test.Each fun _ p => 0 < p) :
    0 < test.massOf (.number .zero) ↔
      ¬test.Each fun o _ => compare o (single (.number .zero)) ≠ .eq := by
  have hnonneg := massOf_nonneg (fun e he => (htest e he).le) (.number .zero)
  rw [hnonneg.lt_iff_ne', ne_eq, not_iff_not]
  show test.mass _ = 0 ↔ _
  rw [mass_eq_integral, integral_eq_zero_iff htest fun e _ => indicator_nonneg _ e.1]
  refine forall₂_congr fun e _ => ?_
  unfold indicator
  by_cases h : compare e.1 (single (.number .zero)) = .eq <;> simp [h]

/-- The integral over a law with another added to it, if the weight is above zero. -/
lemma integral_addPositive {g : Outcome ρ → ℚ} (hg : IsInvariant g) (target : Law ρ ℚ)
    {weight : ℚ} (hweight : 0 ≤ weight) (l : Law ρ ℚ) :
    (target.addPositive weight l).integral g = target.integral g + weight * l.integral g := by
  unfold addPositive
  split
  · exact integral_addScaled hg target weight l
  · next h =>
    rw [Mass.isPositive_iff, not_lt] at h
    rw [le_antisymm h hweight, zero_mul, add_zero]

/-- Adding a law without negative masses, if the weight is above zero, makes none. -/
lemma nonneg_addPositive {target : Law ρ ℚ} {weight : ℚ}
    (htarget : target.Each fun _ p => 0 ≤ p)
    (hl : Mass.isPositive weight = true → l.Each fun _ p => 0 ≤ p) :
    (target.addPositive weight l).Each fun _ p => 0 ≤ p := by
  unfold addPositive
  split
  · next h => exact nonneg_addScaled htarget ((Mass.isPositive_iff _).1 h).le (hl h)
  · exact htarget

/-- The mixture of the branches of an `if`, weighted by the chances that the test is not zero and
that it is. A branch without a chance has no part in it. -/
def mixture (test l l' : Law ρ ℚ) : Law ρ ℚ :=
  addPositive (addPositive .empty (Builtin.chanceOfNonzero test) l)
    (test.massOf (.number .zero)) l'

/-- The integral over a mixture weights the integrals over the branches by their chances. -/
lemma integral_mixture_eq {g : Outcome ρ → ℚ} (hg : IsInvariant g)
    (htest : test.Each fun _ p => 0 ≤ p) (l l' : Law ρ ℚ) :
    (test.mixture l l').integral g =
      Builtin.chanceOfNonzero test * l.integral g
        + test.massOf (.number .zero) * l'.integral g := by
  unfold mixture
  rw [integral_addPositive hg _ (massOf_nonneg htest _),
    integral_addPositive hg _ (chanceOfNonzero_nonneg htest), integral_empty, zero_add]

/-- The integral over a mixture chooses the branch by the outcome of the test. -/
lemma integral_mixture {g : Outcome ρ → ℚ} (hg : IsInvariant g)
    (htest : test.Each fun _ p => 0 ≤ p) (l l' : Law ρ ℚ) :
    (test.mixture l l').integral g = test.integral fun o =>
      (1 - indicator (single (.number .zero)) o) * l.integral g
        + indicator (single (.number .zero)) o * l'.integral g := by
  rw [integral_mixture_eq hg htest, integral_add, integral_mul_const, integral_mul_const,
    ← chanceOfNonzero_eq, ← mass_eq_integral]
  rfl

/-- The mixture of two branches has mass one if the branches with a chance have. -/
theorem isNormalized_mixture (htest : test.IsNormalized)
    (hl : Mass.isPositive (Builtin.chanceOfNonzero test) = true → l.IsNormalized)
    (hl' : Mass.isPositive (test.massOf (.number .zero)) = true → l'.IsNormalized) :
    (test.mixture l l').IsNormalized where
  nonneg := nonneg_addPositive (nonneg_addPositive nonneg_empty fun h => (hl h).nonneg)
    fun h => (hl' h).nonneg
  total := by
    have hweight {p : ℚ} {d : Law ρ ℚ} (hp : 0 ≤ p)
        (hd : Mass.isPositive p = true → d.IsNormalized) : p * d.integral (fun _ => 1) = p := by
      rcases hp.eq_or_lt with rfl | hp
      · rw [zero_mul]
      · rw [(hd ((Mass.isPositive_iff p).2 hp)).total, mul_one]
    rw [integral_mixture_eq (isInvariant_const 1) htest.nonneg,
      hweight (chanceOfNonzero_nonneg htest.nonneg) hl, hweight (massOf_nonneg htest.nonneg _) hl',
      chanceOfNonzero_add, htest.total]

end Law

/-! ## Sessions -/

/-- Every law within reach of the scope, or of a function that is registered, has mass one. -/
structure Session.IsNormalized (s : Session ρ ℚ) : Prop where
  /-- The laws that the scope binds. -/
  scope : ∀ i ∈ s.scope.chain, s.frames.Holds (Binding.HasLaws Law.IsNormalized) i
  /-- The laws that the scopes of the registered functions bind. -/
  closures : ∀ shape f, s.registry.find? shape = some (.user f) →
    ∀ i ∈ f.scope.chain, s.frames.Holds (Binding.HasLaws Law.IsNormalized) i

namespace Session

/-- A new session binds no law. -/
lemma isNormalized_start (limits : Limits ℚ) : (start limits : Session ρ ℚ).IsNormalized where
  scope i _ name b hb := absurd hb (Frames.find?_initial_ne i name b)
  closures shape f hf := absurd hf (Registry.find?_standard_ne_user shape f)

/-- A global variable whose laws have mass one keeps the laws of a session so. -/
lemma IsNormalized.bindGlobal {s : Session ρ ℚ} (hs : s.IsNormalized) (name : String)
    {b : Binding ρ ℚ} (hb : b.HasLaws Law.IsNormalized) : (s.bindGlobal name b).IsNormalized where
  scope i hi := (hs.scope i hi).assign .global name hb
  closures shape f hf i hi := (hs.closures shape f hf i hi).assign .global name hb

end Session

namespace Contract

/-- The contract of an evaluation that conserves probability. -/
def normalized (ρ : Type) [Scalar ρ] : Contract ρ ℚ where
  answers := .any
  inv := Session.IsNormalized
  usable s scope := ∀ i ∈ scope.chain, s.frames.Holds (Binding.HasLaws Law.IsNormalized) i
  after _ s t := t.scope = s.scope ∧ t.limits = s.limits ∧
    ∀ i, s.frames.Holds (Binding.HasLaws Law.IsNormalized) i →
      t.frames.Holds (Binding.HasLaws Law.IsNormalized) i
  law := Law.IsNormalized
  die := Law.IsNormalized
  stop e := ∀ total, e ≠ .fault (.notNormalized total)
  node _ := True

/-- Every primitive step of an evaluation conserves probability.

**Proof sketch.** Step by step. Only the steps that bind or that compute laws have to do with them:
a binding keeps the promise in the frame in which it is made, and operations, rolls, maxima and
mixtures of normalized laws are normalized. The others leave the frames as they are. -/
theorem isSound_normalized : (normalized ρ).IsSound where
  refl _ s := ⟨rfl, rfl, fun _ h => h⟩
  trans h h' := ⟨h'.1.trans h.1, h'.2.1.trans h.2.1, fun i hi => h'.2.2 i (h.2.2 i hi)⟩
  statement h := h
  ordinary h total he := h total (Stop.fault.inj he)
  outOfFuel := nofun
  spend _ hs := ⟨⟨hs.scope, hs.closures⟩, rfl, rfl, fun _ h => h⟩
  lookup hs hb := Frames.of_lookup? hs.scope hb
  assign name hs hb :=
    ⟨⟨fun i hi => (hs.scope i hi).assign _ name hb,
      fun shape f hf i hi => (hs.closures shape f hf i hi).assign _ name hb⟩,
      rfl, rfl, fun i hi => hi.assign _ name hb⟩
  inside hs := hs.scope
  closure hs hf := ⟨hs.closures _ _ hf, fun e _ => Expr.every_of_forall (fun _ => trivial) e⟩
  keep h hscope i hi := h.2.2 i (hscope i hi)
  enter {s scope} hs hscope := by
    refine ⟨fun i hi => Frames.holds_enter_iff.2 ?_,
      fun shape f hf i hi => Frames.holds_enter_iff.2 (hs.closures shape f hf i hi)⟩
    rcases List.mem_cons.1 hi with rfl | hi
    · exact Frames.holds_of_size_le (Nat.le_refl s.frames.size)
    · exact hscope i hi
  leave {s scope t} hs ht h := by
    have hframes : ∀ i, s.frames.Holds (Binding.HasLaws Law.IsNormalized) i →
        t.frames.Holds (Binding.HasLaws Law.IsNormalized) i := fun i hi =>
      h.2.2 i (Frames.holds_enter_iff.2 hi)
    exact ⟨⟨fun i hi => hframes i (hs.scope i hi), ht.closures⟩, rfl, h.2.1, hframes⟩
  down hs := ⟨hs.scope, hs.closures⟩
  up {s scope t u} hs h hu h' := by
    have hframes : ∀ i, s.frames.Holds (Binding.HasLaws Law.IsNormalized) i →
        u.frames.Holds (Binding.HasLaws Law.IsNormalized) i := fun i hi =>
      h'.2.2 i (h.2.2 i (Frames.holds_enter_iff.2 hi))
    exact ⟨⟨fun i hi => hframes i (hs.scope i hi), hu.closures⟩, rfl, h'.2.1.trans h.2.1, hframes⟩
  declare {s signature body} hs _ _ := by
    refine ⟨⟨hs.scope, fun shape f hf i hi => ?_⟩, rfl, rfl, fun _ h => h⟩
    rw [Dictionary.find?_insert] at hf
    split at hf
    · obtain rfl := Function.user.inj (Option.some_inj.1 hf)
      exact hs.scope i hi
    · exact hs.closures shape f hf i hi
  certain x := Law.isNormalized_certain _
  die h := h
  operate hl hl' h := hl.operate hl' h
  sum hl hl' h := Dice.isNormalized_of_law hl hl' h
  dice hl hl' h := Dice.isNormalized_of_laws hl hl' h
  maximum hls h := Law.isNormalized_of_maximum hls h
  branch htest hl hl' := Law.isNormalized_mixture htest hl hl'

end Contract

/-! ## Conservation -/

/-- From a session whose laws have mass one, a computation leads, whatever the answers, to results
with a property, and to a session in which the laws within reach and those of every frame that had
only such laws, or was not made before, have mass one. -/
def Run.Conserves {α : Type} (act : Run ρ ℚ α) (Q : α → Prop) : Prop :=
  ∀ s : Session ρ ℚ, s.IsNormalized → ∀ r s', act.Leads .any s r s' →
    s'.IsNormalized ∧
    (∀ i, s.frames.Holds (Binding.HasLaws Law.IsNormalized) i →
      s'.frames.Holds (Binding.HasLaws Law.IsNormalized) i) ∧
    ∀ a, r = .ok a → Q a

/-- What keeps the contract conserves probability. -/
lemma Contract.Meets.conserves {α : Type} {p : Part} {act : Run ρ ℚ α} {Q : α → Prop}
    (h : (normalized ρ).Meets p act Q) : act.Conserves Q := by
  intro s hs r s' hr
  obtain ⟨hinv, hafter, hres⟩ := h s hs r s' hr
  refine ⟨hinv, hafter.2.2, ?_⟩
  rintro a rfl
  exact hres

/-- A session whose laws have mass one has such laws when it is renewed. -/
lemma Session.IsNormalized.renewed {s : Session ρ ℚ} (hs : s.IsNormalized) :
    s.renewed.IsNormalized := ⟨hs.scope, hs.closures⟩

/-- No tolerance is needed for a law with mass one. -/
lemma Session.checked_eq_ok {l : Law ρ ℚ} (hl : l.IsNormalized) {tolerance : ℚ}
    (htolerance : 0 ≤ tolerance) : checked tolerance l = .ok l := by
  have hwithin : l.isNormalized tolerance = true := by
    unfold Law.isNormalized
    rw [Mass.isWithin_iff, Law.total_eq_integral, hl.total, sub_self, abs_zero]
    exact htolerance
  rw [checked, if_pos hwithin]

/-- Every answer of every expression conserves probability: its law, the laws of its components,
what a variable or a parameter holds to which it is bound, its sampled value and items with the
laws that are taken as values in them, and its flow as a statement. No tolerance is needed for the
mass of its law.

**Proof sketch.** Every primitive step keeps the contract `Contract.normalized`, hence so does
every expression (`Contract.covers_meaning`). A law is refused only for its mass, which is one. -/
theorem evaluation_conserves_probability (e : Expr ρ) :
    (e.law : Run ρ ℚ _).Conserves Law.IsNormalized ∧
    (e.laws : Run ρ ℚ _).Conserves (fun ls => ∀ l ∈ ls, l.IsNormalized) ∧
    (∀ m, (e.ask (·.stored m) : Run ρ ℚ _).Conserves (Binding.HasLaws Law.IsNormalized)) ∧
    (e.value : Run ρ ℚ _).Conserves (Value.HasLaws Law.IsNormalized) ∧
    (e.items : Run ρ ℚ _).Conserves (fun vs => ∀ v ∈ vs, v.HasLaws Law.IsNormalized) ∧
    (∀ m, (e.ask (·.step m) : Run ρ ℚ _).Conserves (Flow.Holds (m.HasLaws Law.IsNormalized))) ∧
    ∀ s : Session ρ ℚ, s.IsNormalized → 0 ≤ s.limits.tolerance → ∀ r s',
      (Session.distribution e).Leads .any s r s' →
      ∀ total, r ≠ .error (.fault (.notNormalized total)) := by
  have hcovers (fuel : Nat) : (Contract.normalized ρ).Covers (e.meaning fuel) :=
    Contract.covers_meaning Contract.isSound_normalized fuel
      (Expr.every_of_forall (fun _ => trivial) e)
  have hlaw := Contract.meets_ask fun fuel => (hcovers fuel).law
  refine ⟨hlaw.conserves, (Contract.meets_ask fun fuel => (hcovers fuel).laws).conserves,
    fun m => (Contract.meets_ask fun fuel => (hcovers fuel).stored m).conserves,
    (Contract.meets_ask fun fuel => (hcovers fuel).value).conserves,
    (Contract.meets_ask fun fuel => (hcovers fuel).items).conserves,
    fun m => (Contract.meets_ask fun fuel => (hcovers fuel).step m).conserves, ?_⟩
  intro s hs htolerance r s' h total
  obtain ⟨r₀, h₀, rfl⟩ := Session.leads_distribution.1 h
  obtain ⟨_, ⟨_, hlimits, _⟩, hres⟩ := hlaw _ hs.renewed _ _ h₀
  cases r₀ with
  | error e => exact fun he => hres total (Except.error.inj he)
  | ok l =>
    show Session.checked _ l ≠ _
    rw [Session.checked_eq_ok hres (by rwa [hlimits])]
    nofun

/-- As many dice as a bound coin shows: the sum has twelve outcomes, and their mass is one. -/
theorem evaluation_conserves_coin :
    let s : Session Float ℚ := (Session.start ⟨none, none, none, 0⟩).bindGlobal "coin"
      (.law (.uniform 2))
    let e : Expr Float := .dice (.var "coin") (.literal (.int 6))
    s.IsNormalized ∧ ∃ d t, e.law.Leads .any s (.ok d) t ∧ d.size = 12 ∧ d.IsNormalized := by
  intro s e
  have hs : s.IsNormalized :=
    (Session.isNormalized_start _).bindGlobal "coin" (Law.isNormalized_uniform (by decide))
  have hsize : (e.law.play s (⟨1, 1⟩ : Stepper)).1.toOption.map Table.size = some 12 := by
    decide +kernel
  obtain ⟨d, hd, hsize⟩ := Option.map_eq_some_iff.1 hsize
  have hany : Roller.Answers Stepper .any := fun _ _ _ => trivial
  have hlaw := Run.leads_play hany e.law s ⟨1, 1⟩
  rw [Except.toOption_eq_some_iff.1 hd] at hlaw
  obtain ⟨-, -, hnormalized⟩ := (evaluation_conserves_probability e).1 s hs _ _ hlaw
  exact ⟨hs, d, _, hlaw, hsize, hnormalized d rfl⟩

end DiceCalculus
