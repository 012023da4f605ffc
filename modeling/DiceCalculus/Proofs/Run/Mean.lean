import DiceCalculus.Proofs.Sampler.Chance
import DiceCalculus.Proofs.Run.Exec

set_option autoImplicit false
set_option relaxedAutoImplicit false

/-!
# What a computation comes to on average

With fair dice a computation on a session has an expected value, and it may succeed whatever the
dice show. Both are worked out one step after the other.

## Main definitions

* `Run.Succeeds` — a computation has a result, whatever faces the dice show.
* `Run.mean` — the expected value of a function of the result. A failure counts as zero.
* `Run.chance` — the chance that there is a result with a property.
* `Run.Returns` — a computation has a result without dice.

## Main results

* `Run.succeeds_bind`, `Run.mean_bind` — one computation and then another.
* `Run.mean_eq_zero_iff` — a function that is not negative has mean zero exactly if it is zero at
  every result.
-/

namespace DiceCalculus

namespace Run

variable {ρ μ : Type} [Scalar ρ] {α β : Type}
variable {act : Run ρ μ α} {f : α → Run ρ μ β} {s s' : Session ρ μ}

/-- From a session, a computation has a result, whatever faces the dice show. -/
def Succeeds (act : Run ρ μ α) (s : Session ρ μ) : Prop :=
  ∀ r s', act.Leads IsRoll s r s' → ∃ a, r = .ok a

/-- The expected value of a function of the result of a computation. A failure counts as zero. -/
def mean (act : Run ρ μ α) (s : Session ρ μ) (g : α → ℚ) : ℚ :=
  (act.exec s).expect fun p => p.1.toOption.elim 0 g

/-- The chance that a computation has a result with a property. -/
def chance (act : Run ρ μ α) (s : Session ρ μ) (p : α → Bool) : ℚ :=
  (act.exec s).chance fun q => q.1.toOption.any p = true

/-- A chance is the mean of an indicator. -/
lemma chance_eq_mean (act : Run ρ μ α) (s : Session ρ μ) (p : α → Bool) :
    act.chance s p = act.mean s fun a => if p a then 1 else 0 := by
  refine Sampler.expect_congr fun q _ => ?_
  obtain ⟨e | a, s'⟩ := q
  · exact if_neg nofun
  · rfl

/-- A computation asks for no dice and has a result. -/
def Returns (act : Run ρ μ α) (s : Session ρ μ) (r : Except (Stop ρ μ) α) : Prop :=
  ∃ s', act.exec s = .done (r, s')

/-- A computation that asks for no dice and has a result with a property. -/
lemma exists_returns {p : α → Bool}
    (h : ((act.exec s).result?.any fun q => q.1.toOption.any p) = true) :
    ∃ a, act.Returns s (.ok a) ∧ p a = true := by
  cases hexec : act.exec s with
  | roll count sides next =>
    rw [hexec] at h
    cases h
  | done q =>
    obtain ⟨e | a, s'⟩ := q
    · rw [hexec] at h
      cases h
    · rw [hexec] at h
      exact ⟨a, ⟨s', hexec⟩, h⟩

/-- A finished computation succeeds if it has a result. -/
lemma succeeds_iff_of_done {r : Except (Stop ρ μ) α} (h : act.exec s = .done (r, s')) :
    act.Succeeds s ↔ ∃ a, r = .ok a := by
  constructor
  · exact fun hs => hs r s' ((leads_iff_of_done h).2 ⟨rfl, rfl⟩)
  · rintro ha r' t ht
    obtain ⟨rfl, -⟩ := (leads_iff_of_done h).1 ht
    exact ha

/-- A result that is given is a result. -/
lemma succeeds_pure (a : α) : (pure a : Run ρ μ α).Succeeds s :=
  (succeeds_iff_of_done rfl).2 ⟨a, rfl⟩

/-- A calculation succeeds if it has a result. -/
lemma succeeds_ofExcept {x : Except (Fault ρ μ) α} :
    (ofExcept x).Succeeds s ↔ ∃ a, x = .ok a := by
  rw [succeeds_iff_of_done (exec_ofExcept x s)]
  cases x <;> simp [Except.mapError]

/-- One computation and then another succeed if the first does, and the second from every result
of the first. -/
theorem succeeds_bind : (act >>= f).Succeeds s ↔
    act.Succeeds s ∧ ∀ a s₁, act.Leads IsRoll s (.ok a) s₁ → (f a).Succeeds s₁ := by
  constructor
  · intro h
    constructor
    · intro r s₁ hr
      cases r with
      | ok a => exact ⟨a, rfl⟩
      | error e =>
        obtain ⟨b, hb⟩ := h _ _ (leads_bind.2 (.inr ⟨e, hr, rfl⟩))
        cases hb
    · exact fun a s₁ ha r s₂ hr => h _ _ (leads_bind.2 (.inl ⟨a, s₁, ha, hr⟩))
  · rintro ⟨hact, hf⟩ r s₂ hr
    rcases leads_bind.1 hr with ⟨a, s₁, ha, hb⟩ | ⟨e, he, -⟩
    · exact hf a s₁ ha r s₂ hb
    · obtain ⟨a, ha⟩ := hact _ _ he
      cases ha

/-- A function of a result changes nothing about success. -/
lemma succeeds_map {k : α → β} : (act >>= fun a => pure (k a)).Succeeds s ↔ act.Succeeds s := by
  rw [succeeds_bind, and_iff_left fun _ _ _ => succeeds_pure _]

/-- A request without a limit succeeds. -/
lemma succeeds_roll (hlimits : s.limits.maxRolls = none) (count sides : Nat) :
    (roll count sides).Succeeds s := by
  intro r s₁ h
  obtain ⟨-, hr⟩ := leads_roll.1 h
  rw [hlimits, if_pos (show Limits.allows none _ = true from rfl)] at hr
  obtain ⟨faces, -, rfl⟩ := hr
  exact ⟨faces, rfl⟩

/-- The mean of a finished computation. -/
lemma mean_of_done {r : Except (Stop ρ μ) α} (h : act.exec s = .done (r, s')) (g : α → ℚ) :
    act.mean s g = r.toOption.elim 0 g := by
  unfold mean
  rw [h, Sampler.expect_done]

/-- The mean of a result that is given. -/
@[simp] lemma mean_pure (a : α) (s : Session ρ μ) (g : α → ℚ) :
    (pure a : Run ρ μ α).mean s g = g a := mean_of_done (exec_pure a s) g

/-- The mean of a calculation with a result. -/
lemma mean_ofExcept {x : Except (Fault ρ μ) α} {a : α} (h : x = .ok a) (g : α → ℚ) :
    (ofExcept x).mean s g = g a := by
  subst h
  exact mean_pure a s g

/-- Functions that agree on the results of a computation have the same mean. -/
lemma mean_congr {g h : α → ℚ} (hgh : ∀ a s', act.Leads IsRoll s (.ok a) s' → g a = h a) :
    act.mean s g = act.mean s h := by
  refine Sampler.expect_congr fun p hp => ?_
  obtain ⟨e | a, s'⟩ := p
  · rfl
  · exact hgh a s' hp

/-- The mean of a sum. -/
lemma mean_add (act : Run ρ μ α) (s : Session ρ μ) (g h : α → ℚ) :
    act.mean s (fun a => g a + h a) = act.mean s g + act.mean s h := by
  unfold mean
  rw [← Sampler.expect_add]
  refine Sampler.expect_congr fun p _ => ?_
  obtain ⟨e | a, s'⟩ := p
  · exact (add_zero 0).symm
  · rfl

/-- A constant factor moves out of a mean. -/
lemma mean_const_mul (act : Run ρ μ α) (s : Session ρ μ) (c : ℚ) (g : α → ℚ) :
    act.mean s (fun a => c * g a) = c * act.mean s g := by
  unfold mean
  rw [← Sampler.expect_const_mul]
  refine Sampler.expect_congr fun p _ => ?_
  obtain ⟨e | a, s'⟩ := p
  · exact (mul_zero c).symm
  · rfl

/-- One computation and then another: the mean of the means. -/
theorem mean_bind {g : β → ℚ} {h : α → ℚ}
    (hf : ∀ a s₁, act.Leads IsRoll s (.ok a) s₁ → (f a).mean s₁ g = h a) :
    (act >>= f).mean s g = act.mean s h := by
  unfold mean
  rw [exec_bind, Sampler.expect_bind]
  refine Sampler.expect_congr fun p hp => ?_
  obtain ⟨e | a, s₁⟩ := p
  · rfl
  · exact hf a s₁ hp

/-- The mean of a computation after a calculation with a result. -/
lemma mean_bind_ofExcept {x : Except (Fault ρ μ) α} {a : α} (h : x = .ok a) {g : β → ℚ} {c : ℚ}
    (hf : (f a).mean s g = c) : (ofExcept x >>= f).mean s g = c := by
  subst h
  exact hf

/-- The mean of a function of a result. -/
lemma mean_map (k : α → β) (g : β → ℚ) :
    (act >>= fun a => pure (k a)).mean s g = act.mean s fun a => g (k a) :=
  mean_bind fun a s₁ _ => mean_pure (k a) s₁ g

/-- The mean of a request without a limit averages over the faces. -/
lemma mean_roll (hlimits : s.limits.maxRolls = none) (count sides : Nat)
    (g : List UInt32 → ℚ) : (roll count sides).mean s g = rollAverage count sides g := by
  unfold mean
  rw [exec_roll, hlimits, if_pos (show Limits.allows none _ = true from rfl)]
  rfl

/-- The mean of a computation in a fresh frame. -/
lemma mean_inFreshFrame (act : Run ρ μ α) (s : Session ρ μ) (g : α → ℚ) :
    (inFreshFrame act).mean s g = act.mean (s.enter s.scope) g := by
  unfold mean
  rw [exec_inFreshFrame, Sampler.expect_bind]
  rfl

/-- A function that is not negative has mean zero exactly if it is zero at every result. -/
theorem mean_eq_zero_iff {g : α → ℚ} (hg : ∀ a, 0 ≤ g a) :
    act.mean s g = 0 ↔ ∀ a s', act.Leads IsRoll s (.ok a) s' → g a = 0 := by
  unfold mean
  rw [Sampler.expect_eq_zero_iff fun p _ => ?_]
  · constructor
    · exact fun h a s' ha => h (.ok a, s') ha
    · rintro h ⟨e | a, s'⟩ hp
      · rfl
      · exact h a s' hp
  · obtain ⟨e | a, s'⟩ := p
    · exact le_rfl
    · exact hg a

/-- A computation succeeds exactly if it fails with chance zero. -/
lemma succeeds_iff_expect :
    act.Succeeds s ↔ ((act.exec s).expect fun p => p.1.toOption.elim 1 fun _ => 0) = 0 := by
  rw [Sampler.expect_eq_zero_iff fun p _ => by cases p.1 <;> norm_num [Except.toOption]]
  constructor
  · rintro h ⟨r, s'⟩ hp
    obtain ⟨a, rfl⟩ := h r s' hp
    rfl
  · intro h r s' hp
    cases r with
    | ok a => exact ⟨a, rfl⟩
    | error e => exact absurd (h _ hp) one_ne_zero

/-- A computation with a mean other than zero has a result. -/
lemma exists_leads_of_mean_ne_zero {g : α → ℚ} (h : act.mean s g ≠ 0) :
    ∃ a s', act.Leads IsRoll s (.ok a) s' := by
  by_contra hnone
  refine h ((mean_congr (h := fun _ => 0) fun a s' ha => absurd ⟨a, s', ha⟩ hnone).trans ?_)
  exact (mean_eq_zero_iff fun _ => le_rfl).2 fun _ _ _ => rfl

end Run

end DiceCalculus
