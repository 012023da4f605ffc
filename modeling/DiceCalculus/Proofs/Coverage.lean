import DiceCalculus.Proofs.Coverage.Programs
import DiceCalculus.Proofs.Exact
import DiceCalculus.Roller

set_option autoImplicit false
set_option relaxedAutoImplicit false

/-!
# The exact law misses no sample

What a program is sampled to is an outcome of its law, whatever the dice show. This holds of the
whole language: of variables that are read any number of times, of blocks and outputs, of functions
that call themselves, of sequences and of maxima over random rolls.

## Main definitions

* `Session.IsPlain` — a session whose variables hold numbers and sequences of numbers, and whose
  functions neither declare others nor take a law as a value.

## Main results

* `Stepper.answers_dice` — faces that advance by a step are answers of dice.
* `sample_has_mass` — a sampled value is a number with mass above zero.
-/

namespace DiceCalculus

/-- Faces that advance by a step, each taken round to the number of sides, are answers of dice. -/
theorem Stepper.answers_dice : Roller.Answers Stepper .dice := by
  intro count sides s hpos hlt
  have hsides : (UInt32.ofNat sides).toNat = sides := UInt32.toNat_ofNat_of_lt' hlt
  show IsRoll count sides (s.deal sides count).1
  induction count generalizing s with
  | zero => exact ⟨rfl, nofun⟩
  | succ count ih =>
    obtain ⟨hlength, hfaces⟩ := ih { s with next := s.next + s.step }
    refine ⟨congrArg (· + 1) hlength, List.forall_mem_cons.2 ⟨?_, hfaces⟩⟩
    refine ⟨((s.next - 1) % .ofNat sides).toNat, ?_, ?_⟩
    · rw [UInt32.toNat_mod, hsides]
      exact Nat.mod_lt _ hpos
    · rw [UInt32.ofNat_add, UInt32.ofNat_toNat]
      rfl

variable {ρ : Type} [Scalar ρ]

/-- Every variable of a session holds a number or a sequence of numbers, and no function that is
registered declares another one or takes a law as a value. -/
structure Session.IsPlain (s : Session ρ ℚ) : Prop where
  /-- All variables hold numbers or sequences of numbers. -/
  frames : ∀ i, s.frames.Holds (fun b => ∃ v : Value ρ ℚ, b = .value v ∧ v.IsPlain) i
  /-- The bodies of the declared functions are made of plain expressions. -/
  registry : s.registry.IsPlain
  /-- The frames of the scope and of the declared functions exist. -/
  wellScoped : s.IsWellScoped

/-- There is no law in a plain value. -/
lemma Value.IsPlain.hasLaws {P : Law ρ ℚ → Prop} {v : Value ρ ℚ} (h : v.IsPlain) :
    v.HasLaws P := by
  cases h with
  | number x => exact .number x
  | sequence xs => exact .sequence (List.forall_mem_map.2 fun x _ => .number x)

namespace Session.IsPlain

variable {s : Session ρ ℚ} (hs : s.IsPlain)

include hs

/-- A plain session is plain when it is renewed. -/
lemma renewed : s.renewed.IsPlain := ⟨hs.frames, hs.registry, hs.wellScoped.renewed⟩

/-- A plain session has the invariant of the evaluation of plain expressions. -/
lemma inv : (Contract.plain s.registry).inv s := by
  have hholds (i : Nat) : s.frames.Holds (Binding.HasLaws Law.IsNormalized) i := by
    intro name b hb
    obtain ⟨v, rfl, hv⟩ := hs.frames i name b hb
    exact hv.hasLaws
  exact ⟨⟨fun i _ => hholds i, fun _ _ _ i _ => hholds i⟩, hs.wellScoped, rfl⟩

/-- A plain session covers itself. -/
lemma covers_self : s.Covers s.registry s := by
  have hframe (i : Nat) : s.frames.Covers i s.frames i := by
    intro name
    cases hb : s.frames.find? i name with
    | none => exact .none
    | some b =>
      obtain ⟨v, rfl, hv⟩ := hs.frames i name b hb
      exact .some (.value hv)
  have hchain (chain : List Nat) : s.frames.CoverChain chain s.frames chain :=
    List.forall₂_same.2 fun i _ => hframe i
  exact ⟨hs.inv, hs.inv, hchain _, fun _ _ _ => hchain _⟩

end Session.IsPlain

/-- A program that has a law is sampled to numbers only, and the law gives each of them a mass above
zero. The law and the sample start from the same session, whose variables hold numbers and sequences
of numbers, and the sample takes its dice from any roller that answers as dice do.

**Proof sketch.** The session covers itself. From sessions that cover each other every form of
expressions goes on to sessions that do, and its law covers its samples (`Expr.isCovered_meaning`):
no operation drops an outcome with mass, and no branch with a chance is left out. -/
theorem sample_has_mass (hρ : Scalar.IsCongruent ρ) {s : Session ρ ℚ} (hs : s.IsPlain)
    {e : Expr ρ} (he : e.Every (Expr.IsPlain s.registry)) {σ : Type} [Roller σ]
    (hσ : Roller.Answers σ .dice) (r r' : σ) {d : Law ρ ℚ} {v : Value ρ ℚ}
    (hd : ((Session.distribution e).play s r).1 = .ok d)
    (hv : ((Session.evaluate e).play s r').1 = .ok v) :
    ∃ x, v = .number x ∧ 0 < d.massOf (.number x) := by
  have hdistribution := Run.leads_play hσ (Session.distribution e) s r
  rw [hd] at hdistribution
  obtain ⟨r₀, hlaw, hchecked⟩ := Session.leads_distribution.1 hdistribution
  have hvalue := Run.leads_play hσ (Session.evaluate e) s r'
  rw [hv] at hvalue
  cases r₀ with
  | error _ => cases hchecked
  | ok l =>
    obtain rfl := Session.eq_of_checked hchecked.symm
    have hcovered := Expr.isCovered_meaning hρ hs.registry s.renewed.fuel he
    exact hcovered.value hs.renewed.covers_self
      ((Run.leads_ask.1 hlaw).mono fun _ _ _ _ => trivial)
      (Run.leads_ask.1 (Session.leads_evaluate.1 hvalue))

/-- The double of a coin is a call of a declared function that reads its parameter twice. It is
sampled to a number that its law gives mass to.

**Proof sketch.** The session has one function, whose body has no statement but an output, and the
stepper answers as dice do. That both a law and a sample are found is computed; that the law gives
mass to the sample follows from the theorem. -/
theorem sample_has_mass_double :
    let double : Closure (WithBot ℚ) :=
      ⟨⟨"double", .ofList ["x"]⟩, [.output (.binary .add (.var "x") (.var "x"))], .global⟩
    let s : Session (WithBot ℚ) ℚ := { Session.start ⟨none, some 1, none, 0⟩ with
      registry := Registry.standard.insert double.signature.shape (.user double) }
    let e : Expr (WithBot ℚ) :=
      .ofCall "double" (.ofList [.dice (.literal (.int 1)) (.literal (.int 2))])
    let r : Stepper := ⟨2, 1⟩
    s.IsPlain ∧ e.Every (Expr.IsPlain s.registry) ∧ Roller.Answers Stepper .dice ∧
      ∃ d x, ((Session.distribution e).play s r).1 = .ok d ∧
        ((Session.evaluate e).play s r).1 = .ok (.number x) ∧ 0 < d.massOf (.number x) := by
  intro double s e r
  have hs : s.IsPlain := by
    refine ⟨fun i name b hb => absurd hb (Frames.find?_initial_ne i name b), fun shape f hf => ?_, ?_⟩
    · rw [Registry.eq_of_find?_insert_standard hf]
      simp [double, Expr.IsPlain]
    · have hglobal := (Session.isWellScoped_start (ρ := WithBot ℚ) s.limits).scope
      refine ⟨hglobal, fun shape f hf => ?_⟩
      rw [Registry.eq_of_find?_insert_standard hf]
      exact hglobal
  have he : e.Every (Expr.IsPlain s.registry) := by
    have hcall : e.IsPlain s.registry := nofun
    simpa [e, Expr.IsPlain] using hcall
  have hlaw : ((Session.distribution e).play s r).1.toOption.isSome = true := by decide +kernel
  have hvalue : ((Session.evaluate e).play s r).1.toOption.isSome = true := by decide +kernel
  obtain ⟨d, hd⟩ := Except.exists_eq_ok_of_isSome hlaw
  obtain ⟨v, hv⟩ := Except.exists_eq_ok_of_isSome hvalue
  obtain ⟨x, rfl, hx⟩ :=
    sample_has_mass Scalar.isCongruent_exact hs he Stepper.answers_dice r r hd hv
  exact ⟨hs, he, Stepper.answers_dice, d, x, hd, hv, hx⟩

end DiceCalculus
