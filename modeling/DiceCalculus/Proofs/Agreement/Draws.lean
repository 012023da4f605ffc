import DiceCalculus.Proofs.Law.Position
import DiceCalculus.Proofs.Run.Mean
import DiceCalculus.Proofs.Sessions

set_option autoImplicit false
set_option relaxedAutoImplicit false

/-!
# Drawing from a law

A sampled expression draws from a law if its mean is the integral over the law, whatever function
of the value is averaged. What is done with a drawn number is then said about the law: it succeeds
if it does at every outcome, and its mean is an integral.

## Main definitions

* `Session.Charged` — the sessions that differ from a given one only in what has been used up: dice
  that are spent, and frames that have come and gone.
* `Law.IsDrawnBy` — a sampled expression draws a number from a law.
* `Law.AreDrawnBy` — a list of numbers is drawn one after the other, each from a law of its own.
* `Run.Agrees` — a computation without dice has a result exactly if a sampled one succeeds.

## Main results

* `Law.IsDrawnBy.each_iff` — the numbers that are drawn are the outcomes of the law.
* `Law.IsDrawnBy.succeeds_bind`, `Law.IsDrawnBy.mean_bind` — what is done with a drawn number.
* `Run.Agrees.bind` — a computation that starts with another one that agrees.
-/

namespace DiceCalculus

variable {ρ : Type} [Scalar ρ] {α β : Type}

open Outcome

/-- A value as an outcome. A value that is not a number is told apart from all numbers. -/
def Value.outcome {μ : Type} : Value ρ μ → Outcome ρ
  | number x => .single (.number x)
  | sequence _ | law _ => .single .absent

/-! ## Spending dice -/

namespace Session

variable {μ : Type} {s t : Session ρ μ}

/-- A session is what is left of a given one after some dice have been spent and some frames have come
and gone. Nothing else is different. -/
structure Charged (s t : Session ρ μ) : Prop where
  /-- The limits are the same. -/
  limits : t.limits = s.limits
  /-- The registered functions are the same. -/
  registry : t.registry = s.registry
  /-- The scope is the same. -/
  scope : t.scope = s.scope
  /-- The depth is the same. -/
  depth : t.depth = s.depth
  /-- The frames are still there. -/
  size : s.frames.size ≤ t.frames.size
  /-- They hold the same, and so do the frames of the scope. -/
  frames : ∀ i, i < s.frames.size ∨ i ∈ s.scope.chain → ∀ name,
    t.frames.find? i name = s.frames.find? i name

/-- A session differs in nothing from itself. -/
lemma charged_self (s : Session ρ μ) : s.Charged s := ⟨rfl, rfl, rfl, rfl, le_rfl, fun _ _ _ => rfl⟩

/-- Spending more dice makes no other difference. -/
lemma Charged.spend (h : s.Charged t) (n : Nat) : s.Charged { t with spent := t.spent + n } :=
  ⟨h.limits, h.registry, h.scope, h.depth, h.size, h.frames⟩

/-- What a name is bound to is the same. -/
lemma Charged.lookup? (h : s.Charged t) (name : String) :
    t.frames.lookup? t.scope name = s.frames.lookup? s.scope name := by
  rw [h.scope]
  exact Frames.lookup?_congr fun i hi => h.frames i (.inr hi) name

end Session

/-! ## Numbers that are drawn -/

/-- From every session that differs from a given one only in what has been used up, a sampled
expression draws a number from a law. -/
structure Law.IsDrawnBy (l : Law ρ ℚ) (act : Run ρ ℚ (Value ρ ℚ)) (s : Session ρ ℚ) : Prop where
  /-- The outcomes are numbers with a mass above zero. -/
  numeric : l.IsNumeric
  /-- The masses sum up to one. -/
  normalized : l.IsNormalized
  /-- Every sample is a number, and nothing but dice is spent on it. -/
  results : ∀ {t}, s.Charged t → ∀ {r t'}, act.Leads IsRoll t r t' →
    s.Charged t' ∧ ∃ x, r = .ok (.number x)
  /-- The mean is the integral. -/
  mean : ∀ {t}, s.Charged t → ∀ {g}, IsInvariant g →
    act.mean t (fun v => g v.outcome) = l.integral g

/-- A number is read off a value before a computation goes on with it. -/
def Run.withNumber {μ : Type} (act : Run ρ μ (Value ρ μ)) (f : Number ρ → Run ρ μ β) : Run ρ μ β :=
  act >>= fun v => ofExcept v.toNumber >>= f

/-- A computation that goes on with a number succeeds only if the number can be drawn. -/
lemma Run.Succeeds.of_withNumber {μ : Type} {act : Run ρ μ (Value ρ μ)}
    {f : Number ρ → Run ρ μ β} {t : Session ρ μ} (h : (act.withNumber f).Succeeds t) :
    act.Succeeds t :=
  (succeeds_bind.1 h).1

namespace Law.IsDrawnBy

variable {l : Law ρ ℚ} {act : Run ρ ℚ (Value ρ ℚ)} {f : Number ρ → Run ρ ℚ β} {s t : Session ρ ℚ}
variable (hl : l.IsDrawnBy act s) (ht : s.Charged t)

include hl ht

/-- What is drawn is a number. -/
lemma of_leads {v : Value ρ ℚ} {t' : Session ρ ℚ} (h : act.Leads IsRoll t (.ok v) t') :
    s.Charged t' ∧ ∃ x, v = .number x := by
  obtain ⟨ht', x, hx⟩ := hl.results ht h
  exact ⟨ht', x, Except.ok.inj hx⟩

/-- A drawn number always exists. -/
lemma succeeds : act.Succeeds t := fun _ _ h => by
  obtain ⟨-, x, rfl⟩ := hl.results ht h
  exact ⟨_, rfl⟩

/-- The numbers that are drawn are the outcomes of the law, up to the form of numbers. -/
theorem each_iff {Q : Outcome ρ → Prop} (hQ : IsInvariant Q) :
    (l.Each fun o _ => Q o) ↔
      ∀ x t', act.Leads IsRoll t (.ok (.number x)) t' → Q (single (.number x)) := by
  -- outcomes without the property are told apart by a function that averages to zero
  obtain ⟨miss, hinv, hnonneg, hmiss⟩ := exists_miss hQ
  have hmean : act.mean t (fun v => miss v.outcome) = 0 ↔
      ∀ v t', act.Leads IsRoll t (.ok v) t' → miss v.outcome = 0 :=
    Run.mean_eq_zero_iff fun v => hnonneg v.outcome
  have hlaw := integral_eq_zero_iff hl.numeric.pos fun e _ => hnonneg e.1
  rw [← hl.mean ht hinv, hmean] at hlaw
  constructor
  · intro h x t' hx
    exact (hmiss _).1 (hlaw.2 (fun e he => (hmiss e.1).2 (h e he)) _ t' hx)
  · intro h e he
    refine (hmiss e.1).1 (hlaw.1 (fun v t' hv => ?_) e he)
    obtain ⟨-, x, rfl⟩ := hl.of_leads ht hv
    exact (hmiss _).2 (h x t' hv)

/-- Some number is drawn. -/
lemma exists_leads : ∃ x t', s.Charged t' ∧ act.Leads IsRoll t (.ok (.number x)) t' := by
  have hone : act.mean t (fun _ => 1) = 1 :=
    (hl.mean ht (isInvariant_const 1)).trans hl.normalized.total
  obtain ⟨v, t', hv⟩ := Run.exists_leads_of_mean_ne_zero (hone.trans_ne one_ne_zero)
  obtain ⟨ht', x, rfl⟩ := hl.of_leads ht hv
  exact ⟨x, t', ht', hv⟩

/-- What a computation leads to that goes on with a drawn number. -/
lemma leads_bind {r : Except (Stop ρ ℚ) β} {t' : Session ρ ℚ} :
    (act.withNumber f).Leads IsRoll t r t' ↔ ∃ x t₁, s.Charged t₁ ∧
      act.Leads IsRoll t (.ok (.number x)) t₁ ∧ (f x).Leads IsRoll t₁ r t' := by
  have hread (x : Number ρ) (t₁ : Session ρ ℚ) :
      (Run.ofExcept (Value.number x).toNumber >>= f).Leads IsRoll t₁ r t' ↔
        (f x).Leads IsRoll t₁ r t' := Iff.rfl
  unfold Run.withNumber
  rw [Run.leads_bind]
  constructor
  · rintro (⟨v, t₁, hv, h⟩ | ⟨e, he, rfl⟩)
    · obtain ⟨ht₁, x, rfl⟩ := hl.of_leads ht hv
      exact ⟨x, t₁, ht₁, hv, (hread x t₁).1 h⟩
    · obtain ⟨-, x, hx⟩ := hl.results ht he
      cases hx
  · rintro ⟨x, t₁, -, hx, h⟩
    exact .inl ⟨_, t₁, hx, (hread x t₁).2 h⟩

/-- A computation that goes on with a drawn number, and always succeeds, does so from every number
that is drawn. -/
lemma succeeds_of_leads (h : (act.withNumber f).Succeeds t) {x : Number ρ} {t₁ : Session ρ ℚ}
    (hx : act.Leads IsRoll t (.ok (.number x)) t₁) : s.Charged t₁ ∧ (f x).Succeeds t₁ := by
  have ht₁ := (hl.of_leads ht hx).1
  exact ⟨ht₁, fun r t' hr => h r t' ((hl.leads_bind ht).2 ⟨x, t₁, ht₁, hx, hr⟩)⟩

/-- A computation that goes on with a drawn number, and always succeeds, does so from some number
that is drawn. -/
lemma exists_succeeds (h : (act.withNumber f).Succeeds t) :
    ∃ x t₁, s.Charged t₁ ∧ (f x).Succeeds t₁ := by
  obtain ⟨x, t₁, -, hx⟩ := hl.exists_leads ht
  exact ⟨x, t₁, hl.succeeds_of_leads ht h hx⟩

/-- A computation that goes on with a drawn number succeeds if it does with every outcome. -/
theorem succeeds_bind {Q : Outcome ρ → Prop} (hQ : IsInvariant Q)
    (hf : ∀ x t₁, s.Charged t₁ → ((f x).Succeeds t₁ ↔ Q (single (.number x)))) :
    (act.withNumber f).Succeeds t ↔ l.Each fun o _ => Q o := by
  rw [hl.each_iff ht hQ]
  constructor
  · intro h x t₁ hx
    obtain ⟨ht₁, h₁⟩ := hl.succeeds_of_leads ht h hx
    exact (hf x t₁ ht₁).1 h₁
  · intro h r t' hr
    obtain ⟨x, t₁, ht₁, hx, hr⟩ := (hl.leads_bind ht).1 hr
    exact (hf x t₁ ht₁).2 (h x t₁ hx) r t' hr

/-- The mean of a computation that goes on with a drawn number is an integral. -/
theorem mean_bind {g : β → ℚ} {h : Outcome ρ → ℚ} (hh : IsInvariant h)
    (hf : ∀ x t₁, s.Charged t₁ → act.Leads IsRoll t (.ok (.number x)) t₁ →
      (f x).mean t₁ g = h (single (.number x))) :
    (act.withNumber f).mean t g = l.integral h := by
  rw [← hl.mean ht hh]
  refine Run.mean_bind fun v t₁ hv => ?_
  obtain ⟨ht₁, x, rfl⟩ := hl.of_leads ht hv
  exact hf x t₁ ht₁ hv

end Law.IsDrawnBy

/-! ## Lists of numbers that are drawn -/

/-- The greatest of a list of values and of a number given from the start. -/
def Value.greatestFrom {μ : Type} (x : Number ρ) (vs : List (Value ρ μ)) : Outcome ρ :=
  vs.foldl (fun o v => greater o v.outcome) (single (.number x))

/-- The greatest of a list of numbers. -/
lemma Value.greatestFrom_number {μ : Type} (x : Number ρ) (ys : List (Number ρ)) :
    greatestFrom x (ys.map (Value.number (μ := μ))) = single (.number (ys.foldl Number.max x)) := by
  induction ys generalizing x with
  | nil => rfl
  | cons y ys ih =>
    show List.foldl _ (greater (single (.number x)) (single (.number y))) _ = _
    rw [greater_number]
    exact ih (Number.max x y)

/-- From every session that differs from a given one only in what has been used up, a sampled
expression draws a list of numbers whose greatest has the law of the greatest of independent
numbers, each with a law of its own. -/
structure Law.AreDrawnBy (ls : List (Law ρ ℚ)) (act : Run ρ ℚ (List (Value ρ ℚ)))
    (s : Session ρ ℚ) : Prop where
  /-- The masses are above zero. -/
  pos : ∀ l ∈ ls, l.Each fun _ p => 0 < p
  /-- The masses of each law sum up to one. -/
  normalized : ∀ l ∈ ls, l.IsNormalized
  /-- Every sample is a list of numbers, and nothing but dice is spent on it. -/
  results : ∀ {t}, s.Charged t → ∀ {r t'}, act.Leads IsRoll t r t' →
    s.Charged t' ∧ ∃ xs : List (Number ρ), r = .ok (xs.map .number)
  /-- The mean of a function of the maximum is the integral. -/
  mean : ∀ {t}, s.Charged t → ∀ {g}, IsInvariant g → ∀ x : Number ρ,
    act.mean t (fun vs => g (Value.greatestFrom x vs)) =
      maximumIntegral g ls (single (.number x))

/-! ## Agreement -/

namespace Run

/-- From every session that differs from a given one only in what has been used up, a computation
leaves the session as it is and has one and the same result. It has a result with a property if a
sampled computation always succeeds, and fails if the sampled one may fail. -/
def Agrees (s : Session ρ ℚ) (sample : Run ρ ℚ α) (exact : Run ρ ℚ β) (R : β → Prop) : Prop :=
  ∃ r, (∀ t, s.Charged t → exact.exec t = .done (r, t)) ∧
    (∀ t, s.Charged t → (sample.Succeeds t ↔ ∃ b, r = .ok b)) ∧ ∀ b, r = .ok b → R b

variable {γ δ : Type} {s : Session ρ ℚ} {sample : Run ρ ℚ α} {exact : Run ρ ℚ β} {R : β → Prop}

/-- A calculation agrees that has a result exactly if the sampled computation succeeds. -/
lemma agrees_of_exec {x : Except (Fault ρ ℚ) β}
    (hexec : ∀ t, s.Charged t → exact.exec t = .done (x.mapError .fault, t))
    (hsample : ∀ t, s.Charged t → (sample.Succeeds t ↔ ∃ b, x = .ok b))
    (hR : ∀ b, x = .ok b → R b) : Agrees s sample exact R := by
  refine ⟨x.mapError .fault, hexec, fun t ht => (hsample t ht).trans ?_, fun b hb => hR b ?_⟩
  · cases x <;> simp [Except.mapError]
  · cases x with
    | ok a => exact congrArg Except.ok (Except.ok.inj hb)
    | error e => cases hb

/-- A result that is given agrees with a computation that succeeds. -/
lemma agrees_pure {b : β} (hsample : ∀ t, s.Charged t → sample.Succeeds t) (hb : R b) :
    Agrees s sample (pure b) R :=
  agrees_of_exec (x := .ok b) (fun _ _ => rfl) (fun t ht => iff_of_true (hsample t ht) ⟨b, rfl⟩)
    fun _ h => Except.ok.inj h ▸ hb

/-- If the sampled computation always succeeds, there is a result. -/
lemma Agrees.exists_result (h : Agrees s sample exact R) {t : Session ρ ℚ} (ht : s.Charged t)
    (hsample : sample.Succeeds t) : ∃ b, R b := by
  obtain ⟨r, -, hiff, hR⟩ := h
  obtain ⟨b, hb⟩ := (hiff t ht).1 hsample
  exact ⟨b, hR b hb⟩

/-- The result of a computation that agrees is known with what the computation does. -/
lemma Agrees.with_exec (h : Agrees s sample exact R) :
    Agrees s sample exact fun b => R b ∧ ∀ t, s.Charged t → exact.exec t = .done (.ok b, t) := by
  obtain ⟨r, hexec, hsample, hR⟩ := h
  exact ⟨r, hexec, hsample, fun b hb => ⟨hR b hb, hb ▸ hexec⟩⟩

/-- A computation that starts with one that agrees with a part of the sampled one. -/
theorem Agrees.bind {sample' : Run ρ ℚ γ} {f : β → Run ρ ℚ δ} {R' : δ → Prop}
    (h : Agrees s sample exact R)
    (hpart : ∀ t, s.Charged t → sample'.Succeeds t → ∃ t₁, s.Charged t₁ ∧ sample.Succeeds t₁)
    (hf : ∀ b, R b → Agrees s sample' (f b) R') : Agrees s sample' (exact >>= f) R' := by
  obtain ⟨r, hexec, hsample, hR⟩ := h
  cases r with
  | error e =>
    refine ⟨.error e, fun t ht => ?_, fun t ht => iff_of_false (fun h => ?_) nofun, nofun⟩
    · rw [exec_bind, hexec t ht, Sampler.done_bind]
    · obtain ⟨t₁, ht₁, h₁⟩ := hpart t ht h
      obtain ⟨b, hb⟩ := (hsample t₁ ht₁).1 h₁
      cases hb
  | ok b =>
    obtain ⟨r', hexec', hsample', hR'⟩ := hf b (hR b rfl)
    refine ⟨r', fun t ht => ?_, hsample', hR'⟩
    rw [exec_bind, hexec t ht, Sampler.done_bind]
    exact hexec' t ht

/-- From every session that differs from a given one only in what has been used up, a computation
asks for no dice, leaves the session as it is and has one and the same result. -/
def IsFixed (s : Session ρ ℚ) (act : Run ρ ℚ α) : Prop :=
  ∃ r, ∀ t, s.Charged t → act.exec t = .done (r, t)

/-- A value that is given is fixed. -/
lemma isFixed_pure (s : Session ρ ℚ) (a : α) : IsFixed s (pure a) := ⟨.ok a, fun _ _ => rfl⟩

/-- The result of a calculation is fixed. -/
lemma isFixed_ofExcept (s : Session ρ ℚ) (x : Except (Fault ρ ℚ) α) : IsFixed s (ofExcept x) :=
  ⟨_, fun t _ => exec_ofExcept x t⟩

/-- One fixed computation and then another. -/
lemma IsFixed.bind {act : Run ρ ℚ α} {f : α → Run ρ ℚ β} (h : IsFixed s act)
    (hf : ∀ a, IsFixed s (f a)) : IsFixed s (act >>= f) := by
  obtain ⟨r, hr⟩ := h
  cases r with
  | error e => exact ⟨.error e, fun t ht => by rw [exec_bind, hr t ht, Sampler.done_bind]⟩
  | ok a =>
    obtain ⟨r', hr'⟩ := hf a
    exact ⟨r', fun t ht => by rw [exec_bind, hr t ht, Sampler.done_bind]; exact hr' t ht⟩

/-- Fixed computations for the items of a list. -/
lemma isFixed_mapM {xs : List α} {f : α → Run ρ ℚ β} (h : ∀ x ∈ xs, IsFixed s (f x)) :
    IsFixed s (xs.mapM f) := by
  induction xs with
  | nil => exact isFixed_pure s []
  | cons x xs ih =>
    rw [List.forall_mem_cons] at h
    rw [List.mapM_cons]
    exact h.1.bind fun _ => (ih h.2).bind fun _ => isFixed_pure s _

/-- Being fixed is about what a computation does in the sessions in question. -/
lemma IsFixed.congr {act act' : Run ρ ℚ α} (hact : ∀ t, s.Charged t → act'.exec t = act.exec t)
    (h : IsFixed s act) : IsFixed s act' := by
  obtain ⟨r, hr⟩ := h
  exact ⟨r, fun t ht => (hact t ht).trans (hr t ht)⟩

/-- Agreement is about what computations do in the sessions in question. -/
lemma Agrees.congr {sample' : Run ρ ℚ α} {exact' : Run ρ ℚ β} {R' : β → Prop}
    (hsample : ∀ t, s.Charged t → sample'.exec t = sample.exec t)
    (hexact : ∀ t, s.Charged t → exact'.exec t = exact.exec t)
    (hR : ∀ b, R b → R' b) (h : Agrees s sample exact R) : Agrees s sample' exact' R' := by
  obtain ⟨r, hexec, hsucc, hr⟩ := h
  refine ⟨r, fun t ht => (hexact t ht).trans (hexec t ht), fun t ht => ?_, fun b hb => hR b (hr b hb)⟩
  rw [← hsucc t ht]
  unfold Succeeds Leads
  rw [hsample t ht]

end Run

/-- What draws from a law is known by what it does in the sessions in question. -/
lemma Law.IsDrawnBy.congr {l : Law ρ ℚ} {act act' : Run ρ ℚ (Value ρ ℚ)} {s : Session ρ ℚ}
    (h : ∀ t, s.Charged t → act'.exec t = act.exec t) (hl : l.IsDrawnBy act s) :
    l.IsDrawnBy act' s where
  numeric := hl.numeric
  normalized := hl.normalized
  results {t} ht {r t'} hr := by
    refine hl.results ht ?_
    unfold Run.Leads at hr ⊢
    rwa [← h t ht]
  mean {t} ht {g} hg := by
    rw [← hl.mean ht hg]
    unfold Run.mean
    rw [h t ht]

end DiceCalculus
