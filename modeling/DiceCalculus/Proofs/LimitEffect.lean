import DiceCalculus.Proofs.Exact
import DiceCalculus.Proofs.LimitEffect.Lockstep
import DiceCalculus.Proofs.Plan.Fuel
import DiceCalculus.Roller

set_option autoImplicit false
set_option relaxedAutoImplicit false

/-!
# The effect of limits

A session under limits does what it does without any, as long as these are enough for what is
demanded of them, and else fails with the fault of the limit that is the first to be exceeded.

## Main definitions

* `Limits.IsLooser` — limits of which none is below those of others.

## Main results

* `Request.traceWith_eq_trace` — the fuel of a session is enough, or more would be needed anyway.
* `Request.traceWith_of_isLooser` — an answer is found under looser limits, with fuel for the calls
  that were under way at once.
* `limits_are_exact` — what limits do to an answer.
-/

namespace DiceCalculus

variable {ρ μ : Type} [Scalar ρ] {σ : Type}

/-- None of the limits is below those of others, and the tolerance is the same. -/
structure Limits.IsLooser (looser limits : Limits μ) : Prop where
  /-- The limit of the number of dice. -/
  rolls : ∀ n, looser.maxRolls = some n → ∃ k ≤ n, limits.maxRolls = some k
  /-- The limit of the number of calls that are under way at once. -/
  depth : ∀ n, looser.maxDepth = some n → ∃ k ≤ n, limits.maxDepth = some k
  /-- The limit of the number of outcomes. -/
  outcomes : ∀ n, looser.maxOutcomes = some n → ∃ k ≤ n, limits.maxOutcomes = some k
  /-- The tolerance for the total mass of a law. -/
  tolerance : looser.tolerance = limits.tolerance

/-- What fits within limits fits within looser ones. -/
lemma Demand.Fits.of_isLooser {d : Demand} {limits looser : Limits μ} (h : d.Fits limits)
    (hlooser : looser.IsLooser limits) : d.Fits looser where
  depth n hn := by
    obtain ⟨k, hk, hlimit⟩ := hlooser.depth n hn
    exact Nat.le_trans (h.depth k hlimit) hk
  rolls n hn := by
    obtain ⟨k, hk, hlimit⟩ := hlooser.rolls n hn
    exact Nat.le_trans (h.rolls k hlimit) hk
  outcomes n hn := by
    obtain ⟨k, hk, hlimit⟩ := hlooser.outcomes n hn
    exact Nat.le_trans (h.outcomes k hlimit) hk

/-! ## The fuel of a request -/

namespace Session

variable {s : Session ρ μ}

/-- Without a limit of the depth, a request has fuel for `10 ^ 9` calls. -/
lemma fuel_renewed_of_none (h : s.limits.maxDepth = none) : s.renewed.fuel = 10 ^ 9 := by
  unfold Session.fuel
  rw [show s.renewed.limits.maxDepth = none from h]
  rfl

/-- Under a limit of the depth, a request has fuel for as many calls. -/
lemma fuel_renewed_of_some {n : Nat} (h : s.limits.maxDepth = some n) : s.renewed.fuel = n := by
  unfold Session.fuel
  rw [show s.renewed.limits.maxDepth = some n from h]
  rfl

end Session

section Request

variable [Roller σ] [Mass μ]

namespace Request

/-- With more fuel than a session has, it does the same, unless it uses up what it has. That can
happen only if the depth has no limit. -/
theorem traceWith_eq_trace (q : Request ρ) {s : Session ρ μ} {r : σ} {fuel : Nat}
    (hfuel : s.renewed.fuel ≤ fuel)
    (h : s.limits.maxDepth = none → s.renewed.fuel = fuel ∨ (q.trace s r : Trace ρ μ σ _).Ends) :
    q.traceWith (Plan.traceBody fuel) s r = q.trace s r := by
  have hagrees := q.traceWith_agrees (μ := μ) hfuel s r
  cases hdepth : s.limits.maxDepth with
  | some limit => exact hagrees (q.ends_trace hdepth r)
  | none =>
    rcases h hdepth with rfl | hends
    · rfl
    · exact hagrees hends

variable (limits : Limits μ) (q : Request ρ) (s : Session ρ μ) (r : σ)

/-- A run without limits that ends goes along with a run under limits, with some amount of fuel. -/
lemma exists_fuel (hends : (q.trace (s.withLimits limits.lifted) r : Trace ρ μ σ _).Ends) :
    ∃ fuel, q.traceWith (Plan.traceBody fuel) (s.withLimits limits.lifted) r =
        q.trace (s.withLimits limits.lifted) r ∧
      q.traceWith (Plan.traceBody fuel) (s.withLimits limits) r = q.trace (s.withLimits limits) r := by
  refine ⟨max (s.withLimits limits.lifted).renewed.fuel (s.withLimits limits).renewed.fuel,
    q.traceWith_eq_trace (Nat.le_max_left ..) fun _ => .inr hends,
    q.traceWith_eq_trace (Nat.le_max_right ..) fun hnone => .inl ?_⟩
  -- without a limit of the depth, both sessions have the same fuel
  rw [Session.fuel_renewed_of_none hnone, Session.fuel_renewed_of_none (s := s.withLimits limits.lifted) rfl,
    max_self]

/-- If limits are enough for what is demanded without them, nothing else happens under them. -/
lemma traceWith_of_fits (fuel : Nat)
    (h : (Demand.of (q.traceWith (Plan.traceBody fuel) (s.withLimits limits.lifted) r).log).Fits
      limits) :
    q.traceWith (Plan.traceBody fuel) (s.withLimits limits) r =
      (q.traceWith (Plan.traceBody fuel) (s.withLimits limits.lifted) r).withLimits limits :=
  (q.inStep_traceWith fuel (s.withLimits limits.lifted) rfl r).same .zero ⟨rfl, rfl⟩ h

/-- If limits are not enough, the answer is the fault of the first that is exceeded. -/
lemma traceWith_of_not_fits (fuel : Nat)
    (h : ¬ (Demand.of (q.traceWith (Plan.traceBody fuel) (s.withLimits limits.lifted) r).log).Fits
      limits) :
    ∃ f, Demand.zero.firstExcess? limits
        (q.traceWith (Plan.traceBody fuel) (s.withLimits limits.lifted) r).log = some f ∧
      (q.traceWith (Plan.traceBody fuel) (s.withLimits limits) r).result = .error (.fault f) := by
  have hzero : Demand.zero.Fits limits :=
    ⟨fun _ _ => Nat.zero_le _, fun _ _ => Nat.zero_le _, fun _ _ => Nat.zero_le _⟩
  have hstep := q.inStep_traceWith fuel (s.withLimits limits.lifted) rfl r
  obtain ⟨f, hf⟩ := Option.ne_none_iff_exists'.1 (mt Demand.firstExcess?_eq_none_iff.1 h)
  exact ⟨f, hf, hstep.fails .zero ⟨rfl, rfl⟩ hzero f hf⟩

/-- Limits under which an answer is found are enough for what is demanded without them. -/
lemma fits_of_ok (fuel : Nat) {a : q.Answer μ}
    (h : (q.traceWith (Plan.traceBody fuel) (s.withLimits limits) r).result = .ok a) :
    (Demand.of (q.traceWith (Plan.traceBody fuel) (s.withLimits limits.lifted) r).log).Fits
      limits := by
  by_contra hexcess
  obtain ⟨f, -, hf⟩ := q.traceWith_of_not_fits limits s r fuel hexcess
  cases h.symm.trans hf

omit limits in
/-- Two amounts of fuel that are not used up lead to the same run. -/
lemma traceWith_eq_of_ends {fuel fuel' : Nat}
    (h : (q.traceWith (Plan.traceBody fuel) s r : Trace ρ μ σ _).Ends)
    (h' : (q.traceWith (Plan.traceBody fuel') s r : Trace ρ μ σ _).Ends) :
    q.traceWith (Plan.traceBody fuel) s r = q.traceWith (Plan.traceBody fuel') s r :=
  calc q.traceWith (Plan.traceBody fuel) s r
      = q.traceWith (Plan.traceBody (max fuel fuel')) s r :=
        (q.traceWith_agrees (Nat.le_max_left ..) s r h).symm
    _ = q.traceWith (Plan.traceBody fuel') s r := q.traceWith_agrees (Nat.le_max_right ..) s r h'

/-- Fuel for the calls that are under way at once is enough.

**Proof sketch.** Let the run demand `n` calls at once. Under the limit `n` of the depth it is the same
as without, and there the fuel `n` is not used up, so the run with the fuel `n` is the same too. An
answer is found in it, hence it fits within the limit, and the limit can be lifted again. -/
lemma traceWith_of_depth_le {fuel fuel' : Nat} {a : q.Answer μ}
    (h : (q.traceWith (Plan.traceBody fuel) (s.withLimits limits.lifted) r).result = .ok a)
    (hfuel : (Demand.of (q.traceWith (Plan.traceBody fuel) (s.withLimits limits.lifted) r).log).depth
      ≤ fuel') :
    q.traceWith (Plan.traceBody fuel') (s.withLimits limits.lifted) r =
      q.traceWith (Plan.traceBody fuel) (s.withLimits limits.lifted) r := by
  set n := (Demand.of (q.traceWith (Plan.traceBody fuel) (s.withLimits limits.lifted) r).log).depth
    with hn
  let tight : Limits μ := ⟨none, some n, none, limits.tolerance⟩
  have hfits : (Demand.of (q.traceWith (Plan.traceBody fuel) (s.withLimits tight.lifted) r).log).Fits
      tight :=
    ⟨fun k hk => le_of_eq (hn.symm.trans (Option.some_inj.1 hk)), nofun, nofun⟩
  have hlimited := q.traceWith_of_fits tight s r fuel hfits
  have hends : (q.traceWith (Plan.traceBody fuel) (s.withLimits tight) r).Ends := by
    rw [hlimited]
    exact .of_ok h
  -- the fuel of a session under the limit is the limit
  have hown : (q.traceWith (Plan.traceBody n) (s.withLimits tight) r).Ends :=
    q.ends_trace (s := s.withLimits tight) rfl r
  have hsame := q.traceWith_eq_of_ends (s.withLimits tight) r hown hends
  have hok : (q.traceWith (Plan.traceBody n) (s.withLimits tight) r).result = .ok a := by
    rw [hsame, hlimited]
    exact h
  have hfree := q.traceWith_of_fits tight s r n (q.fits_of_ok tight s r n hok)
  have hok' : (q.traceWith (Plan.traceBody n) (s.withLimits limits.lifted) r).result = .ok a := by
    rw [hfree] at hok
    exact hok
  have hmore := q.traceWith_agrees hfuel (s.withLimits limits.lifted) r (.of_ok hok')
  exact hmore.trans (q.traceWith_eq_of_ends (s.withLimits limits.lifted) r (.of_ok hok') (.of_ok h))

/-- An answer that is found under limits is found in the same way under looser ones, with fuel for the
calls that are under way at once, or with as much as before. -/
lemma traceWith_of_isLooser {limits looser : Limits μ} (hlooser : looser.IsLooser limits)
    {q : Request ρ} {a : q.Answer μ}
    (h : (q.trace (s.withLimits limits) r : Trace ρ μ σ _).result = .ok a) {fuel : Nat}
    (hfuel : fuel = (s.withLimits limits).renewed.fuel ∨
      (Demand.of (q.trace (s.withLimits limits) r : Trace ρ μ σ _).log).depth ≤ fuel) :
    q.traceWith (Plan.traceBody fuel) (s.withLimits looser) r =
      (q.trace (s.withLimits limits) r).withLimits looser := by
  have hlifted : looser.lifted = limits.lifted := by
    unfold Limits.lifted
    rw [hlooser.tolerance]
  set own := (s.withLimits limits).renewed.fuel with hown
  have htrace : q.trace (s.withLimits limits) r =
      q.traceWith (Plan.traceBody own) (s.withLimits limits) r := rfl
  have hfits := q.fits_of_ok limits s r own h
  have hfree := q.traceWith_of_fits limits s r own hfits
  rw [htrace, hfree] at h hfuel
  rw [htrace, hfree]
  have hsame : q.traceWith (Plan.traceBody fuel) (s.withLimits limits.lifted) r =
      q.traceWith (Plan.traceBody own) (s.withLimits limits.lifted) r := by
    rcases hfuel with rfl | hfuel
    · rfl
    · exact q.traceWith_of_depth_le limits s r h hfuel
  have hfits' := hfits.of_isLooser hlooser
  rw [← hsame, ← hlifted] at hfits'
  rw [q.traceWith_of_fits looser s r fuel hfits', hlifted, hsame]
  rfl

/-- An answer that is found under limits is found in the same way under looser ones.

**Proof sketch.** A session under the looser limits has the fuel of its own limit of the depth, or
of `10 ^ 9` calls if it has none. Either is as much as the demanded depth: the answer kept to the
stricter limit of the depth, which is no more than the looser one, and without a looser one this is
assumed. So the lemma for any fuel applies. -/
lemma trace_of_isLooser {limits looser : Limits μ} (hlooser : looser.IsLooser limits)
    {q : Request ρ} {a : q.Answer μ}
    (h : (q.trace (s.withLimits limits) r : Trace ρ μ σ _).result = .ok a)
    (hdepth : looser.maxDepth = none → limits.maxDepth = none ∨
      (Demand.of (q.trace (s.withLimits limits) r : Trace ρ μ σ _).log).depth ≤ 10 ^ 9) :
    q.trace (s.withLimits looser) r = (q.trace (s.withLimits limits) r).withLimits looser := by
  refine traceWith_of_isLooser s r hlooser h ?_
  cases hlimit : looser.maxDepth with
  | none =>
    have hown : (s.withLimits looser).renewed.fuel = 10 ^ 9 := Session.fuel_renewed_of_none hlimit
    rw [hown]
    rcases hdepth hlimit with hnone | hle
    · exact .inl (Session.fuel_renewed_of_none hnone).symm
    · exact .inr hle
  | some n =>
    have hown : (s.withLimits looser).renewed.fuel = n := Session.fuel_renewed_of_some hlimit
    obtain ⟨k, hk, hmax⟩ := hlooser.depth n hlimit
    have hfits := q.fits_of_ok limits s r _ h
    have htrace : q.trace (s.withLimits limits) r = _ := q.traceWith_of_fits limits s r _ hfits
    right
    rw [htrace, hown]
    exact (hfits.depth k hmax).trans hk

end Request

/-- Limits are exact: a session that finds an answer without limits finds it under limits, with the
same requests for dice and the same changes of the session, if and only if they are enough for what
was demanded without them. If they are not, the answer is the fault of the limit that is the first to
be exceeded. And limits are transparent: an answer that is found under limits is found under looser
ones, with any fuel for the calls that were under way at once. What a session has without a limit of
the depth is enough for `10 ^ 9` of them.

**Proof sketch.** A run with limits and one without are compared event by event under the same fuel
(`exists_fuel`). As long as what was demanded so far fits, they do the same; the first event that
exceeds a limit is the fault of the run with limits. Looser limits are enough for what fits the
stricter ones (`Request.traceWith_of_isLooser`), under any fuel that the demanded depth does not
exceed. -/
theorem limits_are_exact (q : Request ρ) (limits : Limits μ) (s : Session ρ μ) (r : σ) :
    (∀ a t r', q.perform.play (s.withLimits limits.lifted) r = (.ok a, t, r') →
      let log := (q.trace (s.withLimits limits.lifted) r : Trace ρ μ σ _).log
      ((Demand.of log).Fits limits ↔
        q.perform.play (s.withLimits limits) r = (.ok a, t.withLimits limits, r') ∧
          (q.trace (s.withLimits limits) r : Trace ρ μ σ _).log = log) ∧
      (¬ (Demand.of log).Fits limits → ∃ f, Demand.zero.firstExcess? limits log = some f ∧
        (q.perform.play (s.withLimits limits) r).1 = .error (.fault f))) ∧
    ∀ looser : Limits μ, looser.IsLooser limits →
      ∀ a t r', q.perform.play (s.withLimits limits) r = (.ok a, t, r') →
        let u : Trace ρ μ σ _ := q.trace (s.withLimits limits) r
        (∀ fuel, (Demand.of u.log).depth ≤ fuel →
          q.traceWith (Plan.traceBody fuel) (s.withLimits looser) r = u.withLimits looser) ∧
        ((looser.maxDepth = none → limits.maxDepth = none ∨ (Demand.of u.log).depth ≤ 10 ^ 9) →
          q.perform.play (s.withLimits looser) r = (.ok a, t.withLimits looser, r') ∧
            (q.trace (s.withLimits looser) r : Trace ρ μ σ _).log = u.log) := by
  simp only [← Request.outcome_trace, Trace.outcome, Prod.mk.injEq]
  constructor
  · rintro a t r' ⟨hresult, hsession, hroller⟩
    obtain ⟨fuel, hfree, hlimited⟩ := q.exists_fuel limits s r (.of_ok hresult)
    have hfits := q.traceWith_of_fits limits s r fuel
    have hexcess := q.traceWith_of_not_fits limits s r fuel
    rw [hfree, hlimited] at hfits hexcess
    refine ⟨⟨fun h => ?_, ?_⟩, hexcess⟩
    · rw [hfits h]
      exact ⟨⟨hresult, congrArg (·.withLimits limits) hsession, hroller⟩, rfl⟩
    · rintro ⟨⟨hok, -⟩, -⟩
      by_contra h
      obtain ⟨f, -, hf⟩ := hexcess h
      cases hok.symm.trans hf
  · rintro looser hlooser a t r' ⟨hresult, hsession, hroller⟩
    refine ⟨fun fuel hfuel => Request.traceWith_of_isLooser s r hlooser hresult (.inr hfuel),
      fun hdepth => ?_⟩
    rw [Request.trace_of_isLooser s r hlooser hresult hdepth]
    exact ⟨⟨hresult, congrArg (·.withLimits looser) hsession, hroller⟩, rfl⟩

end Request

/-- The sum of two calls of a function that flips a coin demands one call at a time and two dice. Two
dice are enough for it, and so are three. One is not.

**Proof sketch.** What the run without limits demands is computed: two dice, and one call at a time.
It fits the limit of two dice and not that of one. For looser limits the demanded depth of one is
within what a session has. -/
theorem limits_are_exact_coins :
    let f : Signature := ⟨"flip", .ofList []⟩
    let coin : Expr (WithBot ℚ) := .dice (.literal (.int 1)) (.literal (.int 2))
    let call : Expr (WithBot ℚ) := .ofCall "flip" (.ofList [])
    let q : Request (WithBot ℚ) :=
      .evaluate (.block [.declare f [.output coin], .output (.binary .add call call)])
    let two : Limits ℚ := ⟨some 2, some 1, none, 0⟩
    let one : Limits ℚ := ⟨some 1, some 1, none, 0⟩
    let three : Limits ℚ := ⟨some 3, none, none, 0⟩
    let s : Session (WithBot ℚ) ℚ := .start two.lifted
    let r : Stepper := ⟨1, 1⟩
    let log := (q.trace (s.withLimits two.lifted) r : Trace (WithBot ℚ) ℚ Stepper _).log
    Demand.of log = ⟨0, 1, 2, 0⟩ ∧ ∃ a t r',
      q.perform.play (s.withLimits two.lifted) r = (.ok a, t, r') ∧
      q.perform.play (s.withLimits two) r = (.ok a, t.withLimits two, r') ∧
      (q.perform.play (s.withLimits one) r).1 = .error (.fault .tooManyRolls) ∧
      three.IsLooser two ∧ q.perform.play (s.withLimits three) r = (.ok a, t.withLimits three, r') := by
  intro f coin call q two one three s r log
  have hlog : Demand.of log = ⟨0, 1, 2, 0⟩ := by decide +kernel
  have htwo : (Demand.of log).Fits two := by
    rw [hlog]
    exact ⟨by simp [two], by simp [two], by simp [two]⟩
  have hone : ¬ (Demand.of log).Fits one := fun h => by simpa [hlog, one] using h.rolls 1 rfl
  have hfirst : Demand.zero.firstExcess? one log = some .tooManyRolls := by decide +kernel
  have hlooser : three.IsLooser two :=
    ⟨by simp [three, two], by simp [three], by simp [three], rfl⟩
  have hok : (q.perform.play (s.withLimits two.lifted) r).1.toOption.isSome = true := by
    decide +kernel
  obtain ⟨a, ha⟩ := Except.exists_eq_ok_of_isSome hok
  rcases h : q.perform.play (s.withLimits two.lifted) r with ⟨_, t, r'⟩
  obtain rfl := (congrArg (·.1) h).symm.trans ha
  have hplay := ((limits_are_exact q two s r).1 a t r' h).1.1 htwo
  obtain ⟨f, hf, hresult⟩ := ((limits_are_exact q one s r).1 a t r' h).2 hone
  obtain rfl := Option.some_inj.1 (hf.symm.trans hfirst)
  have hdepth : (Demand.of (q.trace (s.withLimits two) r : Trace _ ℚ _ _).log).depth ≤ 10 ^ 9 := by
    rw [hplay.2, hlog]
    decide
  have hthree := ((limits_are_exact q two s r).2 three hlooser a _ r' hplay.1).2 fun _ => .inr hdepth
  exact ⟨hlog, a, t, r', rfl, hplay.1, hresult, hlooser, hthree.1⟩

end DiceCalculus
