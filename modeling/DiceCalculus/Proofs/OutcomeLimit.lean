import DiceCalculus.Proofs.LimitEffect
import DiceCalculus.Proofs.OutcomeLimit.Sizes
import DiceCalculus.Proofs.Plan.Promise.Forms
import DiceCalculus.Proofs.Run.Scoping

set_option autoImplicit false
set_option relaxedAutoImplicit false

/-!
# What the limit of outcomes bounds

The limit of outcomes is compared with the number of pairs of a joint law and with the number of faces
of a die, before either is made. The answer of an `if` is a sum of laws that were made before, and its
outcomes are not counted. A law with more outcomes than the limit is therefore such an answer, or it was
there before, or it is that of a roll that may be one of no dice, which has one outcome more.

## Main definitions

* `Observation.Brings` — a law with more outcomes than the limit comes about in a run.
* `Promise.counted` — the promise that a law is within the limit unless it comes about so.

## Main results

* `Promise.isSound_counted` — every calculation with laws keeps the promise.
* `Request.play_of_anyOutcomes` — what the limit of outcomes does to an answer that is found without it.
* `large_laws_are_mixtures` — a law with more outcomes than the limit allows.

## Design

The numbers of the programs are doubles, and the limit fits into a word of 64 bits. A larger limit would
allow sums of faces that doubles do not hold.
-/

namespace DiceCalculus

variable {μ : Type} {σ : Type}

/-! ## Laws that are not counted -/

section Brings

variable [Mass μ]

/-- A law with more outcomes than the limit comes about in a run: as the sum of a roll that may be one of
no dice, and then it has one outcome more; as the answer of an `if`; or from a binding that was there
before. -/
inductive Observation.Brings (limit : Nat) (s : Session Float μ) (d : Law Float μ) :
    Observation Float μ → Prop
  /-- The sum of a roll that may be one of no dice. -/
  | roll {l l' : Law Float μ} (hd : (Calculation.sum l l').result = .ok d)
    (hsize : d.size = limit + 1) (hzero : ∃ o ∈ l.keys, o.IsInteger (· = 0)) :
    Brings limit s d (.calculated (.sum l l'))
  /-- The answer of an `if`. -/
  | branch : Brings limit s d (.answered (m := .exact) .branch d)
  /-- The value of a variable that was bound before. -/
  | variable {name : String} {b : Binding Float μ} (hd : ¬b.HasLaws (· ≠ d)) {i : Nat}
    {name' : String} (hb : s.frames.find? i name' = some b) : Brings limit s d (.read name b)

/-- The promise that a law has no more outcomes than the limit unless it comes about otherwise. -/
def Promise.counted (limit : Nat) (s : Session Float μ) (d : Law Float μ) : Promise Float μ where
  limits l := l.maxOutcomes = some limit
  binding b := b.HasLaws (fun l => l = d → l.size ≤ limit) ∨ ∃ i name, s.frames.find? i name = some b
  law l := l = d → l.size ≤ limit
  die _ := True
  fault _ := True
  excuse := Observation.Brings limit s d
  builtin _ _ := True
  node _ := True

/-- All laws are within the limit that do not come about otherwise.

**Proof sketch.** Step by step. Operations and maxima count the outcomes they build, so that their
laws are within the limit. The law of a roll is within it or has one outcome more (`Dice.size_law_le`),
and is then exempt from the promise, as are the answers of an `if` and what was bound before. -/
theorem Promise.isSound_counted {limit : Nat} (hone : 1 ≤ limit) (hword : limit < 2 ^ 64)
    (s : Session Float μ) (d : Law Float μ) : (counted limit s d).IsSound where
  external _ _ := trivial
  bound := .inl
  read {name b} hb he := by
    rcases hb with hb | ⟨i, name', hb⟩
    · exact hb
    · by_contra hlaws
      refine he (.variable (fun hne => hlaws ?_) hb)
      exact Binding.HasLaws.mono (fun l hl heq => absurd heq hl) hne
  certain x _ := (Law.size_certain_le _).trans hone
  die _ := trivial
  operate {op l l'} _ _ :=
    { ok := fun {limits b} hlimit hb _ _ => by
        rw [Calculation.under_operate] at hb
        exact Law.size_le_of_product_fold hlimit hb
      error := fun _ _ => trivial }
  sum {l l'} _ _ :=
    { ok := fun {limits b} hlimit hb he heq => by
        have hlaw := hb
        rw [Calculation.under_sum] at hlaw
        rcases Dice.size_law_le hlimit hword hlaw with hle | ⟨hsize, hzero⟩
        · exact hle
        · obtain ⟨_, -, hresult⟩ := Except.bind_eq_ok_iff.1 hb
          subst heq
          exact absurd (.roll hresult hsize hzero) he
      error := fun _ _ => trivial }
  dice _ _ := ⟨fun _ _ _ _ _ => trivial, fun _ _ => trivial⟩
  maximum {ls} _ :=
    { ok := fun {limits b} hlimit hb _ _ => by
        rw [Calculation.under_maximum] at hb
        exact Law.size_maximumFrom_le hlimit ((Law.size_certain_le _).trans hone) hb
      error := fun _ _ => trivial }
  branch _ _ _ he heq := absurd (heq ▸ .branch) he
  arguments _ _ := .inr fun _ => trivial

end Brings

/-! ## With and without the limit -/

section AnyOutcomes

variable {ρ : Type} [Scalar ρ]

/-- Limits without the one of outcomes. -/
def Limits.anyOutcomes (limits : Limits μ) : Limits μ := { limits with maxOutcomes := none }

/-- If a log exceeds limits but not the ones other than that of outcomes, it exceeds that one first. -/
lemma Demand.firstExcess?_of_anyOutcomes {limits : Limits μ} {limit : Nat}
    (hlimit : limits.maxOutcomes = some limit) {d : Demand} {log : List (Event ρ μ)}
    (h : (d.after log).Fits limits.anyOutcomes) {f : Fault ρ μ}
    (hf : d.firstExcess? limits log = some f) : f = .tooManyOutcomes limit := by
  have hexcess {d : Demand} (h : d.Fits limits.anyOutcomes)
      (hf : d.excess? limits = some f) : f = .tooManyOutcomes limit := by
    obtain ⟨hdepth, hrolls, -⟩ := h.exceeded?
    change Limits.exceeded? limits.maxDepth d.depth = none at hdepth
    change Limits.exceeded? limits.maxRolls d.rolls = none at hrolls
    unfold excess? at hf
    rw [hdepth, hrolls, Option.map_none, Option.map_none, Option.none_or, Option.none_or,
      Option.map_eq_some_iff] at hf
    obtain ⟨n, hn, rfl⟩ := hf
    have hsome := (Option.filter_eq_some_iff.1 hn).1
    rw [hlimit] at hsome
    rw [Option.some_inj.1 hsome]
  induction log generalizing d with
  | nil => exact hexcess h hf
  | cons e log ih =>
    rw [firstExcess?] at hf
    cases hd : d.excess? limits with
    | some f' =>
      rw [hd] at hf
      exact hexcess h.of_after (hd.trans hf)
    | none =>
      rw [hd] at hf
      exact ih h hf

variable [Roller σ] [Mass μ]

/-- An answer that is found without the limit of outcomes is found under it, or the limit is
exceeded. -/
theorem Request.play_of_anyOutcomes {q : Request ρ} {s t : Session ρ μ} {r r' : σ} {limit : Nat}
    (hlimit : s.limits.maxOutcomes = some limit) {a : q.Answer μ}
    (h : q.perform.play (s.withLimits s.limits.anyOutcomes) r = (.ok a, t, r')) :
    q.perform.play s r = (.ok a, t.withLimits s.limits, r') ∨
      (q.perform.play s r).1 = .error (.fault (.tooManyOutcomes limit)) := by
  -- the fuel depends on the limit of the depth only, so it is the same with and without the limit
  have hfree (limits : Limits μ) := q.traceWith_of_fits limits s r s.renewed.fuel
  have hexcess (limits : Limits μ) := q.traceWith_of_not_fits limits s r s.renewed.fuel
  have hloose : q.traceWith (Plan.traceBody s.renewed.fuel) (s.withLimits s.limits.anyOutcomes) r =
      q.trace (s.withLimits s.limits.anyOutcomes) r := rfl
  have htight : q.traceWith (Plan.traceBody s.renewed.fuel) (s.withLimits s.limits) r =
      q.trace s r := rfl
  rw [← q.outcome_trace, Trace.outcome, Prod.mk.injEq, Prod.mk.injEq] at h
  obtain ⟨hresult, hsession, hroller⟩ := h
  have hfits := q.fits_of_ok s.limits.anyOutcomes s r s.renewed.fuel hresult
  have hsame := hfree s.limits.anyOutcomes hfits
  rw [hloose] at hsame
  rw [← q.outcome_trace s r, ← htight]
  by_cases hfits' : (Demand.of (q.traceWith (Plan.traceBody s.renewed.fuel)
      (s.withLimits s.limits.lifted) r).log).Fits s.limits
  · left
    rw [hfree s.limits hfits', Trace.outcome, ← hresult, ← hsession, ← hroller, hsame]
    rfl
  · right
    obtain ⟨f, hf, herror⟩ := hexcess s.limits hfits'
    obtain rfl := Demand.firstExcess?_of_anyOutcomes hlimit hfits hf
    exact herror

end AnyOutcomes

/-! ## Large laws -/

variable [Roller σ] [Mass μ]

/-- Under a limit of outcomes, if the law of an expression is found and has more outcomes than the
limit, then it came about in one of three ways. It is the sum of a roll for which there may be no dice,
and has one outcome more than the limit; or it was the answer of an `if`; or it was read from a variable
that was bound before. And if the law has more outcomes than the limit when there is none, then under
the limit either the answer is the fault of the limit, or the same law is found and came about in one of
these ways.

**Proof sketch.** If nothing that was observed brings the law about, the promise holds of every
step, hence of the request (`Promise.isSound_counted`), and the law is within the limit. For the
second part, a run without the limit is the same under it or ends with its fault
(`Request.play_of_anyOutcomes`). -/
theorem large_laws_are_mixtures {limit : Nat} (hone : 1 ≤ limit) (hword : limit < 2 ^ 64)
    {s : Session Float μ} (hlimit : s.limits.maxOutcomes = some limit) (e : Expr Float) (r : σ) :
    let q : Request Float := .distribution e
    (∀ d t r', (Session.distribution e).play s r = (.ok d, t, r') →
      d.size ≤ limit ∨ ∃ o ∈ q.observed s r, o.Brings limit s d) ∧
    ∀ d t r', (Session.distribution e).play (s.withLimits s.limits.anyOutcomes) r = (.ok d, t, r') →
      limit < d.size →
        ((Session.distribution e).play s r).1 = .error (.fault (.tooManyOutcomes limit)) ∨
          (Session.distribution e).play s r = (.ok d, t.withLimits s.limits, r') ∧
            ∃ o ∈ q.observed s r, o.Brings limit s d := by
  intro q
  have hlarge (d : Law Float μ) (t : Session Float μ) (r' : σ)
      (h : (Session.distribution e).play s r = (.ok d, t, r')) :
      d.size ≤ limit ∨ ∃ o ∈ q.observed s r, o.Brings limit s d := by
    by_cases hbrings : ∃ o ∈ q.observed s r, o.Brings limit s d
    · exact .inr hbrings
    · have hcovers : (Promise.counted limit s d).Covers s :=
        ⟨hlimit, fun i name b hb => .inr ⟨i, name, hb⟩, fun _ => trivial,
          fun _ e _ => e.every_of_forall fun _ => trivial⟩
      have hmet := (Promise.isSound_counted hone hword s d).met_request q
        (e.every_of_forall fun _ => trivial) hcovers r
      obtain ⟨-, -, hallows⟩ := hmet fun o ho he => hbrings ⟨o, ho, he⟩
      have hresult : (q.trace s r : Trace Float μ σ _).result = .ok d :=
        (congrArg (·.1) (q.outcome_trace s r)).trans (congrArg (·.1) h)
      rw [hresult] at hallows
      exact .inl (hallows rfl)
  refine ⟨hlarge, fun d t r' h hsize => ?_⟩
  rcases Request.play_of_anyOutcomes (q := q) hlimit h with hsame | herror
  · exact .inr ⟨hsame, (hlarge d _ r' hsame).resolve_left (Nat.not_le.2 hsize)⟩
  · exact .inl herror

/-- The limit does not bound every law. It allows two outcomes, an `if` reads no variable, and its law is
found and has four. It allows six outcomes, a roll reads no variable either, and its law is found and has
seven, since there may be no dice. -/
theorem mixture_exceeds_limit :
    let coin : Expr Float := .dice (.literal (.int 1)) (.literal (.int 2))
    let test : Expr Float := .binary .eq coin (.literal (.int 1))
    let far : Expr Float := .binary .add coin (.literal (.int 2))
    let e : Expr Float := .ofCall "if" (.ofGroups [test] [("then", [coin]), ("else", [far])])
    let roll : Expr Float := .dice (.binary .sub coin (.literal (.int 1))) (.literal (.int 6))
    let s (limit : Nat) : Session Float ℚ := .start ⟨none, some 1, some limit, 0⟩
    ((s 2).limits.maxOutcomes = some 2 ∧ e.Every (fun e => ∀ name, e ≠ .var name) ∧
      ((Session.distribution e).play (s 2) (⟨1, 1⟩ : Stepper)).1.toOption.map Table.size = some 4) ∧
    (s 6).limits.maxOutcomes = some 6 ∧ roll.Every (fun e => ∀ name, e ≠ .var name) ∧
      ((Session.distribution roll).play (s 6) (⟨1, 1⟩ : Stepper)).1.toOption.map Table.size = some 7 := by
  intro coin test far e roll s
  have hkeywords : compare "else" "then" = .lt := by decide
  refine ⟨⟨rfl, ?_, by decide +kernel⟩, rfl, ?_, by decide +kernel⟩
  · simp [e, test, far, coin, Expr.ofCall, Slots.ofGroups, Slots.withKeyword, Slots.ofList,
      Slots.insertGroup, Slots.items, hkeywords]
  · simp [roll, coin]

/-- The limit allows two outcomes. The law of an `if` has four, and it was not counted. The sum of two
coins would have three, and is refused. Under a limit of six, the law of no dice or one has seven.

**Proof sketch.** The sizes of the three laws are computed. The first two exceed the limit, so that
the theorem tells how they came about. The third one exceeds it too, and under the limit there is no
answer, so that only the fault is left. -/
theorem large_laws_are_mixtures_coins :
    let coin : Expr Float := .dice (.literal (.int 1)) (.literal (.int 2))
    let test : Expr Float := .binary .eq coin (.literal (.int 1))
    let far : Expr Float := .binary .add coin (.literal (.int 2))
    let e : Expr Float := .ofCall "if" (.ofGroups [test] [("then", [coin]), ("else", [far])])
    let sum : Expr Float := .binary .add coin coin
    let roll : Expr Float := .dice (.binary .sub coin (.literal (.int 1))) (.literal (.int 6))
    let s (limit : Nat) : Session Float ℚ := .start ⟨none, some 1, some limit, 0⟩
    let r : Stepper := ⟨1, 1⟩
    (∃ d t r', (Session.distribution e).play (s 2) r = (.ok d, t, r') ∧ d.size = 4 ∧
      ∃ o ∈ (Request.distribution e).observed (s 2) r, o.Brings 2 (s 2) d) ∧
    (∃ d t r', (Session.distribution roll).play (s 6) r = (.ok d, t, r') ∧ d.size = 7 ∧
      ∃ o ∈ (Request.distribution roll).observed (s 6) r, o.Brings 6 (s 6) d) ∧
    ∃ d t r', (Session.distribution sum).play ((s 2).withLimits (s 2).limits.anyOutcomes) r =
        (.ok d, t, r') ∧ d.size = 3 ∧
      ((Session.distribution sum).play (s 2) r).1 = .error (.fault (.tooManyOutcomes 2)) := by
  intro coin test far e sum roll s r
  have hfour : ((Session.distribution e).play (s 2) r).1.toOption.map Table.size = some 4 := by
    decide +kernel
  have hseven : ((Session.distribution roll).play (s 6) r).1.toOption.map Table.size = some 7 := by
    decide +kernel
  have hthree : ((Session.distribution sum).play ((s 2).withLimits (s 2).limits.anyOutcomes)
      r).1.toOption.map Table.size = some 3 := by
    decide +kernel
  have hnone : ((Session.distribution sum).play (s 2) r).1.toOption.isNone = true := by
    decide +kernel
  refine ⟨?_, ?_, ?_⟩
  · obtain ⟨d, hd, hsize⟩ := Option.map_eq_some_iff.1 hfour
    have h : (Session.distribution e).play (s 2) r = (.ok d, _, _) :=
      Prod.ext (Except.toOption_eq_some_iff.1 hd) rfl
    have hlarge := (large_laws_are_mixtures (show 1 ≤ 2 by decide) (by decide) (s := s 2) rfl e r).1 d _ _ h
    exact ⟨d, _, _, h, hsize, hlarge.resolve_left (by omega)⟩
  · obtain ⟨d, hd, hsize⟩ := Option.map_eq_some_iff.1 hseven
    have h : (Session.distribution roll).play (s 6) r = (.ok d, _, _) :=
      Prod.ext (Except.toOption_eq_some_iff.1 hd) rfl
    have hlarge := (large_laws_are_mixtures (show 1 ≤ 6 by decide) (by decide) (s := s 6) rfl roll r).1 d _ _ h
    exact ⟨d, _, _, h, hsize, hlarge.resolve_left (by omega)⟩
  · obtain ⟨d, hd, hsize⟩ := Option.map_eq_some_iff.1 hthree
    have h : (Session.distribution sum).play ((s 2).withLimits (s 2).limits.anyOutcomes) r =
        (.ok d, _, _) := Prod.ext (Except.toOption_eq_some_iff.1 hd) rfl
    have hlarge := large_laws_are_mixtures (show 1 ≤ 2 by decide) (by decide) (s := s 2) rfl sum r
    refine ⟨d, _, _, h, hsize, ?_⟩
    rcases hlarge.2 d _ _ h (by omega) with herror | ⟨hok, -⟩
    · exact herror
    · rw [hok] at hnone
      cases hnone

end DiceCalculus
