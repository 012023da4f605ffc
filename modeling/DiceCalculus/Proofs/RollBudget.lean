import DiceCalculus.Proofs.Interactions

set_option autoImplicit false
set_option relaxedAutoImplicit false

/-!
# The budget of dice

Under a limit of dice, a roller is never asked for more dice than the limit between one renewal of the
session and the next, whatever is evaluated and whatever fails. Once a request was refused, so are all
others until then.

## Main definitions

* `Recorded.delivered` — the number of dice that a roller was asked for.
* `Trace.Charges` — what a run does with a budget.
* `Interaction.IsDirect` — an interaction that does not renew the session.

## Main results

* `Plan.charges_trace`, `Interaction.charges` — every run keeps to the budget.
* `Request.play_renewed` — a request to the session starts with the full budget.
* `Session.charges_afterAll` — interactions in turn keep to the budget.
* `dice_stay_within_budget` — all of these together.

## Design

A request is charged before it is compared with the limit, so the dice that are spent are those that
were asked for. As long as they are within the limit they are those that were delivered. If they are
not, the last request was refused, and nothing is delivered from then on.
-/

namespace DiceCalculus

variable {ρ μ : Type} [Scalar ρ] {σ α β : Type}

/-- The number of dice that a roller was asked for. -/
def Recorded.delivered (r : Recorded σ) : Nat := (r.requests.map (·.1)).sum

/-- A request adds its dice to those that were delivered. -/
lemma Recorded.delivered_roll [Roller σ] (count sides : Nat) (r : Recorded σ) :
    (Roller.roll count sides r).2.delivered = r.delivered + count := by
  show (count :: r.requests.map (·.1)).sum = _
  rw [List.sum_cons, Nat.add_comm]
  rfl

/-! ## Runs within a budget -/

/-- What a run does with a budget, from a session and a roller to those that it leaves. -/
structure Trace.Charges (budget : Nat) (s : Session ρ μ) (r : Recorded σ)
    (t : Trace ρ μ (Recorded σ) α) : Prop where
  /-- The limit stays. -/
  limit : t.session.limits.maxRolls = some budget
  /-- Nothing is given back. -/
  spent_le : s.spent ≤ t.session.spent
  /-- All that is charged is delivered, as long as it is within the budget. -/
  delivered : t.session.spent ≤ budget →
    t.roller.delivered = r.delivered + (t.session.spent - s.spent)
  /-- No more is delivered than was left. -/
  delivered_le : s.spent ≤ budget → t.roller.delivered ≤ r.delivered + (budget - s.spent)
  /-- A run that spends what is not left of the budget fails for it. -/
  exceeding : budget < t.session.spent → s.spent < t.session.spent →
    t.result = .error (.fault .tooManyRolls)
  /-- A budget that is exceeded already delivers nothing. -/
  refused : budget < s.spent → t.roller = r

namespace Trace.Charges

variable {budget : Nat} {s s' : Session ρ μ} {r : Recorded σ} {t : Trace ρ μ (Recorded σ) α}

/-- A run that spends nothing. -/
lemma idle (hs : s.limits.maxRolls = some budget) (hlimits : t.session.limits = s.limits)
    (hspent : t.session.spent = s.spent) (hr : t.roller = r) : t.Charges budget s r where
  limit := hlimits ▸ hs
  spent_le := Nat.le_of_eq hspent.symm
  delivered _ := by rw [hspent, hr, Nat.sub_self, Nat.add_zero]
  delivered_le _ := hr ▸ Nat.le_add_right ..
  exceeding _ hlt := absurd hlt (hspent ▸ Nat.lt_irrefl _)
  refused _ := hr

/-- A run that goes on, spends nothing more and does not undo a failure. -/
lemma leaving (h : t.Charges budget s r) {t' : Trace ρ μ (Recorded σ) β}
    (hlimits : t'.session.limits = t.session.limits) (hspent : t'.session.spent = t.session.spent)
    (hr : t'.roller = t.roller) (herror : ∀ e, t.result = .error e → t'.result = .error e) :
    t'.Charges budget s r where
  limit := hlimits ▸ h.limit
  spent_le := hspent ▸ h.spent_le
  delivered hle := by
    rw [hspent] at hle ⊢
    exact hr ▸ h.delivered hle
  delivered_le hle := hr ▸ h.delivered_le hle
  exceeding hlt hlt' := herror _ (h.exceeding (hspent ▸ hlt) (hspent ▸ hlt'))
  refused hlt := hr.trans (h.refused hlt)

/-- A run from a session in which as much is spent. -/
lemma entering (h : t.Charges budget s r) (hspent : s'.spent = s.spent) :
    t.Charges budget s' r := by
  obtain ⟨hlimit, hle, hdelivered, hdelivered_le, hexceeding, hrefused⟩ := h
  rw [← hspent] at hle hdelivered hdelivered_le hexceeding hrefused
  exact ⟨hlimit, hle, hdelivered, hdelivered_le, hexceeding, hrefused⟩

/-- Runs in turn.

**Proof sketch.** The second run goes on from a result, so the first spent nothing that was not left. -/
lemma andThen (h : t.Charges budget s r)
    {f : α → Session ρ μ → Recorded σ → Trace ρ μ (Recorded σ) β}
    (hf : ∀ a (u : Session ρ μ) r, u.limits.maxRolls = some budget → (f a u r).Charges budget u r) :
    (t.andThen f).Charges budget s r := by
  obtain ⟨log, e | a, u, r'⟩ := t
  · exact h.leaving rfl rfl rfl fun _ he => congrArg Except.error (Except.error.inj he)
  · have hnext := hf a u r' h.limit
    have hspent : s.spent ≤ u.spent := h.spent_le
    have hspent' : u.spent ≤ (f a u r').session.spent := hnext.spent_le
    have hleft : u.spent ≤ budget ∨ u.spent = s.spent := by
      by_contra hnot
      have hlt : budget < u.spent ∧ s.spent < u.spent := by omega
      cases h.exceeding hlt.1 hlt.2
    have hfirst (hu : u.spent ≤ budget) : r'.delivered = r.delivered + (u.spent - s.spent) :=
      h.delivered hu
    refine ⟨hnext.limit, hspent.trans hspent', fun hle => ?_, fun hle => ?_, fun hlt hlt' => ?_,
      fun hlt => (hnext.refused (hlt.trans_le hspent)).trans (h.refused hlt)⟩
    · have hdelivered := hfirst (hspent'.trans hle)
      have hrest := hnext.delivered hle
      show (f a u r').roller.delivered = r.delivered + ((f a u r').session.spent - s.spent)
      omega
    · have hu : u.spent ≤ budget := by omega
      have hdelivered := hfirst hu
      have hrest := hnext.delivered_le hu
      show (f a u r').roller.delivered ≤ r.delivered + (budget - s.spent)
      omega
    · refine hnext.exceeding hlt ?_
      change budget < (f a u r').session.spent at hlt
      change s.spent < (f a u r').session.spent at hlt'
      omega

/-- A request for dice. -/
lemma roll [Roller σ] (hs : s.limits.maxRolls = some budget) (count sides : Nat) (r : Recorded σ)
    (events : List UInt32 → List (Event ρ μ)) :
    (Trace.ofRun events (Run.roll count sides) s r).Charges budget s r := by
  unfold Trace.ofRun
  rw [Run.play_roll, hs]
  by_cases hle : s.spent + count ≤ budget
  · rw [if_pos (by simpa [Limits.allows] using hle)]
    have hdelivered := Recorded.delivered_roll count sides r
    refine ⟨hs, Nat.le_add_right .., fun _ => ?_, fun _ => ?_, fun hlt _ => ?_, fun hlt => ?_⟩
    · show (Roller.roll count sides r).2.delivered = r.delivered + (s.spent + count - s.spent)
      omega
    · show (Roller.roll count sides r).2.delivered ≤ r.delivered + (budget - s.spent)
      omega
    · exact absurd hle (Nat.not_le.2 hlt)
    · omega
  · rw [if_neg (by simpa [Limits.allows] using hle)]
    exact ⟨hs, Nat.le_add_right .., fun hle' => absurd hle' hle, fun _ => Nat.le_add_right ..,
      fun _ _ => rfl, fun _ => rfl⟩

/-- The body of a function, unless the limit of the depth is reached. -/
lemma entered (hs : s.limits.maxRolls = some budget)
    {body : Session ρ μ → Recorded σ → Trace ρ μ (Recorded σ) α}
    (h : ∀ (s : Session ρ μ) r, s.limits.maxRolls = some budget → (body s r).Charges budget s r)
    (r : Recorded σ) : (Trace.entered body s r).Charges budget s r := by
  unfold Trace.entered
  split
  · exact idle hs rfl rfl rfl
  · refine entering (s := s.down s.scope) ?_ rfl
    exact (h (s.down s.scope) r hs).leaving rfl rfl rfl fun _ => id

/-- The activation of a function. -/
lemma activation (hs : s.limits.maxRolls = some budget) (scope : Scope)
    (bs : List (String × Binding ρ μ)) {body : Session ρ μ → Recorded σ → Trace ρ μ (Recorded σ) α}
    (h : ∀ (s : Session ρ μ) r, s.limits.maxRolls = some budget → (body s r).Charges budget s r)
    (r : Recorded σ) : (Trace.activation scope bs body s r).Charges budget s r := by
  have hlimits : ((s.enter scope).assignAll bs).limits = s.limits := Session.assignAll_limits ..
  have hspent : ((s.enter scope).assignAll bs).spent = s.spent := by rw [Session.assignAll_eq]; rfl
  have hentered := entered (s := (s.enter scope).assignAll bs) (hlimits ▸ hs) h r
  exact entering (hentered.leaving rfl rfl rfl fun _ => id) hspent.symm

end Trace.Charges

namespace Plan

variable [Roller σ] {budget : Nat}

/-- The run of a plan keeps to the budget if the runs of bodies do.

**Proof sketch.** By induction over the plan. Only a request for dice spends any. -/
theorem charges_trace
    {body : List (Expr ρ) → (m : Mode) → Session ρ μ → Recorded σ →
      Trace ρ μ (Recorded σ) (m.Answer ρ μ)}
    (hbody : ∀ es m (s : Session ρ μ) r, s.limits.maxRolls = some budget →
      (body es m s r).Charges budget s r) {m : Mode} {p : Part} (x : Plan ρ μ m p α) (s : Session ρ μ)
    (r : Recorded σ) (hs : s.limits.maxRolls = some budget) :
    (x.trace body s r).Charges budget s r := by
  induction x generalizing s r with
  | done a => exact .idle hs rfl rfl rfl
  | calculate c next ih =>
    refine .andThen ?_ ih
    exact .idle hs rfl rfl rfl
  | roll count sides next ih => exact .andThen (.roll hs count sides r _) ih
  | lookup name next ih =>
    refine .andThen ?_ ih
    unfold Trace.ofRun
    rw [Run.play_of_done r (Run.exec_lookup name s)]
    exact .idle hs rfl rfl rfl
  | @call m p α shape builtin pairs next hbuiltin hpairs ih =>
    refine .andThen ?_ ih
    unfold Trace.dispatch
    rcases s.registry.find? shape with _ | b | c
    · exact .idle hs rfl rfl rfl
    · exact hbuiltin b s r hs
    · exact (hpairs c.signature s r hs).andThen fun bs u r hu =>
        .activation hu c.scope bs (hbody c.body m) r
  | frame inner next hinner ih =>
    refine .andThen (t := Trace.inFrame s _) ?_ ih
    refine .entering (s := s.enter s.scope) ?_ rfl
    exact (hinner (s.enter s.scope) r hs).leaving rfl rfl rfl fun _ => id
  | exact inner next hinner ih => exact .andThen (hinner s r hs) ih
  | evaluate inner next hinner ih => exact .andThen (hinner s r hs) ih
  | assign name b next ih =>
    refine .andThen ?_ fun _ => ih
    exact .idle hs rfl rfl rfl
  | declare signature statements next ih =>
    refine .andThen ?_ fun _ => ih
    have hexec := Run.exec_declare (μ := μ) signature statements s
    unfold Trace.ofRun
    split at hexec <;>
    · rw [Run.play_of_done r hexec]
      exact .idle hs rfl rfl rfl

variable [Mass μ]

/-- The run of a body keeps to the budget, with any amount of fuel. -/
lemma charges_traceBody (fuel : Nat) (es : List (Expr ρ)) (m : Mode) (s : Session ρ μ)
    (r : Recorded σ) (hs : s.limits.maxRolls = some budget) :
    (traceBody fuel es m s r).Charges budget s r := by
  induction fuel generalizing es m s r with
  | zero => exact .idle hs rfl rfl rfl
  | succ fuel ih => exact charges_trace ih (ofBody es m) s r hs

/-- The run of a plan with the fuel of the session keeps to the budget. -/
lemma charges_traced {m : Mode} {p : Part} (x : Plan ρ μ m p α) (s : Session ρ μ) (r : Recorded σ)
    (hs : s.limits.maxRolls = some budget) : (x.traced s r).Charges budget s r :=
  charges_trace (charges_traceBody s.fuel) x s r hs

end Plan

/-! ## Interactions -/

/-- An interaction that does not renew the session: it is no request to the session itself. -/
def Interaction.IsDirect : Interaction ρ μ → Prop
  | operation (.request _) => False
  | operation (.bindGlobal _ _) => True
  | ask _ _ => True

section Interactions

variable [Roller σ] {budget : Nat} {s : Session ρ μ} {r : Recorded σ}

/-- A run that comes to what a computation comes to does with the budget what the computation does. -/
lemma Trace.Charges.ofRun {s' : Session ρ μ} {t : Trace ρ μ (Recorded σ) α}
    (h : t.Charges budget s r) {act : Run ρ μ α} (houtcome : t.outcome = act.play s' r) :
    (Trace.ofRun (fun _ => []) act s' r).Charges budget s r :=
  h.leaving (congrArg (·.2.1.limits) houtcome).symm (congrArg (·.2.1.spent) houtcome).symm
    (congrArg (·.2.2) houtcome).symm fun _ he => (congrArg (·.1) houtcome).symm.trans he

variable [Mass μ]

/-- A request to the session keeps to the budget, of which nothing is spent when it starts. -/
lemma Request.charges (q : Request ρ) (hs : s.limits.maxRolls = some budget) :
    (Trace.ofRun (fun _ => []) (q.perform (μ := μ)) s r).Charges budget s.renewed r := by
  refine Trace.Charges.ofRun ?_ (q.outcome_trace s r)
  cases q with
  | evaluate e => exact Plan.charges_traced (e.plans : Plans ρ μ).value s.renewed r hs
  | distribution e =>
    refine (Plan.charges_traced (e.plans : Plans ρ μ).law s.renewed r hs).andThen fun l t r ht => ?_
    exact .idle ht rfl rfl rfl
  | run e =>
    have hstep := Plan.charges_traced ((e.plans : Plans ρ μ).step .sample)
      (s.renewed.inScope .global) r hs
    refine Trace.Charges.entering (s := s.renewed.inScope .global) ?_ rfl
    exact hstep.leaving rfl rfl rfl fun _ he => congrArg (Except.map _) he

/-- An expression that is asked directly keeps to what is left of the budget. -/
lemma Question.charges (q : Question) (e : Expr ρ) (hs : s.limits.maxRolls = some budget) :
    (Trace.ofRun (fun _ => []) (e.ask (q.of (μ := μ))) s r).Charges budget s r :=
  (Plan.charges_traced (q.plan e.plans) s r hs).ofRun (q.outcome_traced e s r)

/-- A direct interaction keeps to what is left of the budget. -/
theorem Interaction.charges {i : Interaction ρ μ} (hi : i.IsDirect)
    (hs : s.limits.maxRolls = some budget) :
    (Trace.ofRun (fun _ => []) i.perform s r).Charges budget s r := by
  rcases i with (q | ⟨name, b⟩) | ⟨q, e⟩
  · exact hi.elim
  · exact .idle hs rfl rfl rfl
  · exact q.charges e hs

/-- A request to the session depends neither on what was spent before nor on the calls that were under
way. -/
theorem Request.play_renewed (q : Request ρ) (spent depth : Nat) :
    (q.perform (μ := μ)).play { s with spent, depth } r = q.perform.play s r := by
  cases q <;> rfl

/-- Direct interactions in turn keep to what is left of the budget. If it is exceeded already, none of
them has the roller asked for anything.

**Proof sketch.** By induction over the interactions. As long as the budget is not exceeded, what is
spent is what was delivered. When an interaction exceeds it, no more than the budget was delivered, and
that is left as it is. -/
theorem Session.charges_afterAll {is : List (Interaction ρ μ)} (his : ∀ i ∈ is, i.IsDirect)
    (hs : s.limits.maxRolls = some budget) :
    (s.afterAll is r).1.limits.maxRolls = some budget ∧ s.spent ≤ (s.afterAll is r).1.spent ∧
      (s.spent ≤ budget → s.spent + (s.afterAll is r).2.delivered ≤ budget + r.delivered) ∧
      (budget < s.spent → (s.afterAll is r).2 = r) := by
  induction is generalizing s r with
  | nil => exact ⟨hs, Nat.le_refl _, fun h => Nat.add_le_add_right h _, fun _ => rfl⟩
  | cons i is ih =>
    obtain ⟨hi, his⟩ := List.forall_mem_cons.1 his
    have hfirst := i.charges hi hs (r := r)
    obtain ⟨hlimit, hle, hwithin, hexceeded⟩ :=
      ih (s := (i.after s r).1) (r := (i.after s r).2) his hfirst.limit
    have hspent : s.spent ≤ (i.after s r).1.spent := hfirst.spent_le
    refine ⟨hlimit, hspent.trans hle, fun hleft => ?_, fun hlt => ?_⟩
    · show s.spent + (Session.afterAll is (i.after s r).1 (i.after s r).2).2.delivered ≤ _
      rcases Nat.lt_or_ge budget (i.after s r).1.spent with hlt | hge
      · have hdelivered : (i.after s r).2.delivered ≤ _ := hfirst.delivered_le hleft
        rw [hexceeded hlt]
        omega
      · have hdelivered : (i.after s r).2.delivered = r.delivered + ((i.after s r).1.spent - s.spent) :=
          hfirst.delivered hge
        have hrest := hwithin hge
        omega
    · exact (hexceeded (hlt.trans_le hspent)).trans (hfirst.refused hlt)

end Interactions

/-! ## Requests for dice -/

section Rolls

variable [Roller σ] {r : σ} {budget : Nat} {s : Session ρ μ}

/-- A request for dice is made if it is within the budget together with what is spent already. -/
lemma Run.play_roll_of_le (hs : s.limits.maxRolls = some budget) {count : Nat}
    (h : s.spent + count ≤ budget) (sides : Nat) : (roll count sides).play s r =
      (.ok (Roller.roll count sides r).1, { s with spent := s.spent + count },
        (Roller.roll count sides r).2) := by
  rw [play_roll, hs, if_pos (by simpa [Limits.allows] using h)]

/-- A request for dice is refused if it exceeds the budget together with what is spent already, even if
it is for no dice. -/
lemma Run.play_roll_of_lt (hs : s.limits.maxRolls = some budget) {count : Nat}
    (h : budget < s.spent + count) (sides : Nat) : (roll count sides).play s r =
      (.error (.fault .tooManyRolls), { s with spent := s.spent + count }, r) := by
  rw [play_roll, hs, if_neg (by simpa [Limits.allows] using h)]

/-- The faces of a roll whose operands have values, if the dice exceed the budget. -/
lemma Meaning.play_faces_of_lt {count sides : Meaning ρ μ} {t u : Session ρ μ} {r₁ r₂ : σ}
    {v w : Value ρ μ} {m n : Nat} (hsides : sides.value.play s r = (.ok v, t, r₁))
    (hm : v.toNumber.bind Dice.sides = .ok m) (hcount : count.value.play t r₁ = (.ok w, u, r₂))
    (hn : w.toNumber.bind Dice.count = .ok n) (hu : u.limits.maxRolls = some budget)
    (hlt : budget < u.spent + n) : (faces count sides).play s r =
      (.error (.fault .tooManyRolls), { u with spent := u.spent + n }, r₂) := by
  have hread {α : Type} {x : Except (Fault ρ μ) α} {a : α} (hx : x = .ok a) (t : Session ρ μ) (r : σ) :
      (Run.ofExcept x).play t r = (.ok a, t, r) := by
    rw [hx]
    rfl
  obtain ⟨x, hx, hm⟩ := Except.bind_eq_ok_iff.1 hm
  obtain ⟨y, hy, hn⟩ := Except.bind_eq_ok_iff.1 hn
  unfold faces
  rw [Run.play_bind_ok hsides, Run.play_bind_ok (hread hx ..), Run.play_bind_ok (hread hm ..),
    Run.play_bind_ok hcount, Run.play_bind_ok (hread hy ..), Run.play_bind_ok (hread hn ..)]
  exact Run.play_bind_error (Run.play_roll_of_lt hu hlt m) _

end Rolls

section Dice

variable [Mass μ] [Roller σ] {r r₁ r₂ : σ} {budget : Nat} {s t u : Session ρ μ} {count sides : Expr ρ}
  {v w : Value ρ μ} {m n : Nat}

/-- Where the evaluation of an expression begins, it ends. -/
lemma Expr.returns_of_play_value {e : Expr ρ} {x : Except (Stop ρ μ) (Value ρ μ)}
    (h : e.value.play s r = (x, t, r₁)) : s.Returns t := by
  have hreturns := (Question.evolves_play .value s.fuel e s r).returns
  rwa [← Question.play_ask, show (e.ask Question.value.of).play s r = _ from h] at hreturns

/-- A roll whose operands have values fails if its dice exceed the budget.

**Proof sketch.** The evaluation of the operands leaves the limit and the depth as they were, so
that both run with the fuel of the session. The roll of their faces then fails for the limit
(`Meaning.play_faces_of_lt`), and every question that is asked of a roll in a sample starts with
these faces. -/
lemma Question.play_dice_of_lt (hsides : sides.value.play s r = (.ok v, t, r₁))
    (hm : v.toNumber.bind Dice.sides = .ok m) (hcount : count.value.play t r₁ = (.ok w, u, r₂))
    (hn : w.toNumber.bind Dice.count = .ok n) (hs : s.limits.maxRolls = some budget)
    (hlt : budget < u.spent + n) (q : Question) (hq : q.mode = .sample) :
    ((Expr.dice count sides).ask q.of).play s r =
      (.error (.fault .tooManyRolls), { u with spent := u.spent + n }, r₂) := by
  have ht := Expr.returns_of_play_value hsides
  have hu := Expr.returns_of_play_value hcount
  have hfuel : t.fuel = s.fuel := by
    unfold Session.fuel
    rw [ht.limits, ht.depth]
  rw [← ht.limits, ← hu.limits] at hs
  have hsides : (sides.meaning s.fuel).value.play s r = (.ok v, t, r₁) :=
    (play_ask .value sides s r).symm.trans hsides
  have hcount : (count.meaning s.fuel).value.play t r₁ = (.ok w, u, r₂) :=
    hfuel ▸ (play_ask .value count t r₁).symm.trans hcount
  have hfaces := Meaning.play_faces_of_lt hsides hm hcount hn hs hlt
  obtain ⟨enter, henter⟩ := Expr.exists_meaning_eq_denote (ρ := ρ) (μ := μ) s.fuel
  have hmeaning : (Expr.dice count sides).meaning s.fuel =
      (.dice (count.meaning s.fuel) (sides.meaning s.fuel) : Meaning ρ μ) := by
    simp only [henter]
    rfl
  have hvalue := Run.play_bind_error hfaces fun xs =>
    (pure (.number (xs.foldl (· + ·) .zero)) : Run ρ μ (Value ρ μ))
  rw [play_ask, hmeaning]
  rcases q with _ | _ | _ | _ | (_ | _) | (_ | _)
  · exact hvalue
  · exact Run.play_bind_error hfaces _
  · cases hq
  · cases hq
  · exact Run.play_bind_error hvalue _
  · cases hq
  · exact Run.play_bind_error hvalue _
  · cases hq

end Dice

/-! ## The budget of a session -/

/-- A counter that stops at some number charges as one that does not, up to that number. -/
lemma Limits.foldl_saturating (cap : Nat) (counts : List Nat) (spent : Nat) :
    counts.foldl (fun spent count => min cap (spent + count)) (min cap spent) =
      min cap (spent + counts.sum) := by
  induction counts generalizing spent with
  | nil => rfl
  | cons count counts ih =>
    have hfirst : min cap (min cap spent + count) = min cap (spent + count) := by omega
    rw [List.foldl_cons, hfirst, ih, List.sum_cons, Nat.add_assoc]

/-- Under a limit of dice, a roller never delivers more dice than the limit between one renewal of the
session and the next.

Take any session with the limit and any roller, whose requests are recorded. A request for dice is made
if it is within the limit together with what is spent already. Otherwise it fails, and the roller is
not asked. So does a roll, whatever its operands are, when these have values: even a roll of no dice,
if the limit is exceeded already. Whatever is asked of an expression fails for the limit if it spends
dice on its way that were not left.

Let any expressions be asked anything in turn, whether or not they fail. The dice that are delivered
come to no more than is left of the limit; and if it is exceeded already, it stays so, and the roller
is not asked for anything. A request to the session itself starts with the full limit, whatever was
spent before. What it spends is what it has delivered, unless it exceeds the limit and fails, and the
limit holds for all that is asked after it as well.

It makes no difference if the counter of dice stops at some number above the limit.

**Proof sketch.** One roll is settled by the guard that it passes. For all else an account is kept,
by induction over what is evaluated: what is spent within the limit has been delivered, and what
exceeds it has failed (`Question.charges`, `Session.charges_afterAll`). A request starts this
account at zero. A counter that stops above the limit is compared with it as the sum is. -/
theorem dice_stay_within_budget [Mass μ] [Roller σ] {s : Session ρ μ} {budget : Nat}
    (hs : s.limits.maxRolls = some budget) (r : Recorded σ) :
    (∀ count sides,
      (s.spent + count ≤ budget → (Run.roll count sides).play s r =
        (.ok (Roller.roll count sides r).1, { s with spent := s.spent + count },
          (Roller.roll count sides r).2)) ∧
      (budget < s.spent + count → (Run.roll count sides).play s r =
        (.error (.fault .tooManyRolls), { s with spent := s.spent + count }, r))) ∧
    (∀ (count sides : Expr ρ) v t r₁ m w u r₂ n,
      sides.value.play s r = (.ok v, t, r₁) → v.toNumber.bind Dice.sides = .ok m →
      count.value.play t r₁ = (.ok w, u, r₂) → w.toNumber.bind Dice.count = .ok n →
      budget < u.spent + n → ∀ q : Question, q.mode = .sample →
        ((Expr.dice count sides).ask q.of).play s r =
          (.error (.fault .tooManyRolls), { u with spent := u.spent + n }, r₂)) ∧
    (∀ (q : Question) (e : Expr ρ), let p := (e.ask q.of).play s r
      budget < p.2.1.spent → s.spent < p.2.1.spent → p.1 = .error (.fault .tooManyRolls)) ∧
    (∀ is : List (Interaction ρ μ), (∀ i ∈ is, i.IsDirect) → let p := s.afterAll is r
      p.1.limits.maxRolls = some budget ∧ s.spent ≤ p.1.spent ∧
        (s.spent ≤ budget → s.spent + p.2.delivered ≤ budget + r.delivered) ∧
        (budget < s.spent → p.2 = r)) ∧
    (∀ q : Request ρ, let p := q.perform.play s r
      (∀ spent depth, q.perform.play { s with spent, depth } r = p) ∧
        p.2.1.limits.maxRolls = some budget ∧
        (p.2.1.spent ≤ budget → p.2.2.delivered = r.delivered + p.2.1.spent) ∧
        (budget < p.2.1.spent → p.1 = .error (.fault .tooManyRolls)) ∧
        ∀ is : List (Interaction ρ μ), (∀ i ∈ is, i.IsDirect) →
          (Session.afterAll is p.2.1 p.2.2).2.delivered ≤ r.delivered + budget) ∧
    ∀ cap, budget < cap → ∀ counts : List Nat,
      Limits.allows s.limits.maxRolls (counts.foldl (fun spent count => min cap (spent + count)) 0) =
        Limits.allows s.limits.maxRolls counts.sum := by
  refine ⟨fun count sides => ⟨fun h => Run.play_roll_of_le hs h sides,
    fun h => Run.play_roll_of_lt hs h sides⟩, ?_, fun q e => ?_, fun is his => ?_, fun q => ?_,
    fun cap hcap counts => ?_⟩
  · intro count sides v t r₁ m w u r₂ n hsides hm hcount hn
    exact Question.play_dice_of_lt hsides hm hcount hn hs
  · exact (q.charges e hs (r := r)).exceeding
  · exact Session.charges_afterAll his hs
  · have hcharges := q.charges hs (r := r)
    have hstart : s.renewed.spent = 0 := rfl
    refine ⟨fun spent depth => q.play_renewed spent depth, hcharges.limit, fun hle => ?_,
      fun hlt => ?_, fun is his => ?_⟩
    · have hdelivered := hcharges.delivered hle
      rwa [hstart] at hdelivered
    · exact hcharges.exceeding hlt (hstart ▸ (Nat.zero_le budget).trans_lt hlt)
    · obtain ⟨-, -, hwithin, hexceeded⟩ := Session.charges_afterAll (s := (q.perform.play s r).2.1)
        (r := (q.perform.play s r).2.2) his hcharges.limit
      rcases Nat.lt_or_ge budget (q.perform.play s r).2.1.spent with hlt | hge
      · exact (hexceeded hlt).symm ▸ hcharges.delivered_le (Nat.zero_le budget)
      · have hdelivered : (q.perform.play s r).2.2.delivered =
            r.delivered + ((q.perform.play s r).2.1.spent - 0) := hcharges.delivered hge
        have hrest := hwithin hge
        omega
  · have hcounter := Limits.foldl_saturating cap counts 0
    rw [Nat.min_zero, Nat.zero_add] at hcounter
    have hiff : min cap counts.sum ≤ budget ↔ counts.sum ≤ budget := by omega
    rw [hcounter, hs]
    exact decide_eq_decide.2 hiff

/-- Under a limit of three dice, two are rolled, and two more are refused. Then no dice can be rolled
either. A request to the session can roll three again.

**Proof sketch.** The requests that are made are computed. The theorem is applied to the session at
the start, and again to the one in which the limit is exceeded. -/
theorem dice_stay_within_budget_of_three :
    let dice (count : Int32) : Expr (WithBot ℚ) := .dice (.literal (.int count)) (.literal (.int 6))
    let s : Session (WithBot ℚ) ℚ := .start ⟨some 3, some 1, none, 0⟩
    let r : Recorded Stepper := .ofState ⟨1, 1⟩
    let is : List (Interaction (WithBot ℚ) ℚ) := [.ask .value (dice 2), .ask .items (dice 2)]
    let p := s.afterAll is r
    let q : Request (WithBot ℚ) := .evaluate (dice 3)
    s.limits.maxRolls = some 3 ∧ p.2.requests = [(2, 6)] ∧ s.spent + p.2.delivered ≤ 3 + r.delivered ∧
      ((dice 0).ask Question.value.of).play p.1 p.2 =
        (.error (.fault .tooManyRolls), { p.1 with spent := p.1.spent + 0 }, p.2) ∧
      (q.perform.play p.1 p.2).2.2.requests = [(3, 6), (2, 6)] ∧
      (q.perform.play p.1 p.2).2.2.delivered = p.2.delivered + (q.perform.play p.1 p.2).2.1.spent := by
  intro dice s r is p q
  have hdirect : ∀ i ∈ is, i.IsDirect := by simp [is, Interaction.IsDirect]
  obtain ⟨-, -, -, hinteractions, -⟩ := dice_stay_within_budget (s := s) rfl r
  obtain ⟨hlimit, -, hwithin, -⟩ := hinteractions is hdirect
  have hp : s.afterAll is r = p := rfl
  rw [hp] at hlimit hwithin
  have hrequests : p.2.requests = [(2, 6)] := by decide +kernel
  have hexceeded : 3 < p.1.spent := by decide +kernel
  have hagain : (q.perform.play p.1 p.2).2.2.requests = [(3, 6), (2, 6)] := by decide +kernel
  have hspent : (q.perform.play p.1 p.2).2.1.spent ≤ 3 := by decide +kernel
  clear_value p
  obtain ⟨-, hdice, -, -, hrequest, -⟩ := dice_stay_within_budget hlimit p.2
  obtain ⟨-, -, hdelivered, -⟩ := hrequest q
  have hliteral (x : Number (WithBot ℚ)) :
      (Expr.literal x).value.play p.1 p.2 = (.ok (.number x), p.1, p.2) := by
    refine (Question.play_ask .value _ p.1 p.2).trans ?_
    cases p.1.fuel <;> rfl
  have hnone := hdice _ _ _ _ _ 6 _ _ _ 0 (hliteral (.int 6)) rfl (hliteral (.int 0)) rfl hexceeded
    .value rfl
  exact ⟨rfl, hrequests, hwithin (Nat.zero_le 3), hnone, hagain, hdelivered hspent⟩

end DiceCalculus
