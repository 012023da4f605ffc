import DiceCalculus.Proofs.Plan.Trace

set_option autoImplicit false
set_option relaxedAutoImplicit false

/-!
# What a run demands of the limits

A log says how many calls were under way at once, how many dice were asked for, and how many outcomes
were asked for at a time. Whether that is within limits can be read off the log of a run that has
none, and so can the limit that is the first to be exceeded.

## Main definitions

* `Demand`, `Demand.after` — what a log demands.
* `Demand.excess?` — the fault of a limit that a demand exceeds.
* `Demand.firstExcess?` — the fault of the limit that is the first to be exceeded by a log.
* `Demand.Fits` — a demand within limits.

## Main results

* `Demand.firstExcess?_append` — the limits along two logs in turn.
* `Demand.firstExcess?_eq_none_iff` — no limit is exceeded along a log if none is at its end.
-/

namespace DiceCalculus

variable {ρ μ : Type}

namespace Limits

/-- A limit, if an amount exceeds it. -/
def exceeded? (limit : Option Nat) (amount : Nat) : Option Nat := limit.filter (· < amount)

variable {limit : Option Nat} {amount amount' : Nat}

/-- An amount that does not exceed a limit. -/
lemma exceeded?_eq_none_iff :
    exceeded? limit amount = none ↔ ∀ n, limit = some n → amount ≤ n := by
  simp [exceeded?, Option.filter_eq_none_iff]

/-- An amount is allowed if it does not exceed the limit. -/
lemma allows_iff : allows limit amount = true ↔ exceeded? limit amount = none := by
  cases limit <;> simp [allows, exceeded?_eq_none_iff]

/-- The greater of two amounts exceeds a limit as the second does if the first does not. -/
lemma exceeded?_max (h : exceeded? limit amount = none) :
    exceeded? limit (max amount amount') = exceeded? limit amount' := by
  cases limit with
  | none => rfl
  | some n =>
    have hle : amount ≤ n := exceeded?_eq_none_iff.1 h n rfl
    have hiff : n < max amount amount' ↔ n < amount' := by omega
    simp [exceeded?, Option.filter, hiff]

/-- One more exceeds a limit that is reached. -/
lemma exceeded?_succ : exceeded? limit (amount + 1) = limit.filter (· ≤ amount) := by
  simp only [exceeded?, Nat.lt_succ_iff]

/-- Outcomes are counted against the limit. -/
lemma checkOutcomes_eq (limits : Limits μ) (outcomes : Nat) :
    limits.checkOutcomes outcomes = match exceeded? limits.maxOutcomes outcomes with
      | some n => (.error (.tooManyOutcomes n) : Except (Fault ρ μ) Unit)
      | none => .ok () := by
  unfold checkOutcomes
  cases limits.maxOutcomes with
  | none => rfl
  | some n =>
    rcases Nat.lt_or_ge n outcomes with hn | hn
    · simp [exceeded?, Option.filter, hn, Nat.not_le.2 hn]
    · simp [exceeded?, Option.filter, hn, Nat.not_lt.2 hn]

end Limits

/-- Under limits, a calculation comes to its result unless one of the sizes exceeds the limit. -/
lemma Calculation.under_eq {α : Type} (limits : Limits μ) (c : Calculation ρ μ α) :
    c.under limits = match c.sizes.findSome? (Limits.exceeded? limits.maxOutcomes) with
      | some n => .error (.tooManyOutcomes n)
      | none => c.result := by
  obtain ⟨sizes, result⟩ := c
  unfold under
  induction sizes with
  | nil => rfl
  | cons n sizes ih =>
    show (do (n :: sizes).forM limits.checkOutcomes; result) = _
    rw [List.forM_eq_forM, List.forM_cons, Limits.checkOutcomes_eq, List.findSome?_cons]
    cases Limits.exceeded? limits.maxOutcomes n with
    | none => exact ih
    | some k => rfl

variable [Scalar ρ]

/-- What a run demands of the limits. -/
structure Demand where
  /-- The number of calls that are under way. -/
  underWay : Nat
  /-- The largest number of calls that were under way at once. -/
  depth : Nat
  /-- The number of dice that were rolled. -/
  rolls : Nat
  /-- The largest number of outcomes that was asked for. -/
  outcomes : Nat
  deriving DecidableEq

namespace Demand

/-- Nothing is demanded. -/
def zero : Demand := ⟨0, 0, 0, 0⟩

/-- What is demanded after one more event. -/
def add (d : Demand) : Event ρ μ → Demand
  | .called => { d with underWay := d.underWay + 1, depth := max d.depth (d.underWay + 1) }
  | .returned => { d with underWay := d.underWay - 1 }
  | .rolled count _ => { d with rolls := d.rolls + count }
  | .measured outcomes => { d with outcomes := max d.outcomes outcomes }
  | _ => d

/-- What is demanded after the events of a log. -/
def after (d : Demand) (log : List (Event ρ μ)) : Demand := log.foldl add d

/-- What a log demands. -/
def of (log : List (Event ρ μ)) : Demand := zero.after log

/-- A demand within limits. -/
structure Fits (d : Demand) (limits : Limits μ) : Prop where
  /-- The number of calls that were under way at once. -/
  depth : ∀ n, limits.maxDepth = some n → d.depth ≤ n
  /-- The number of dice. -/
  rolls : ∀ n, limits.maxRolls = some n → d.rolls ≤ n
  /-- The number of outcomes. -/
  outcomes : ∀ n, limits.maxOutcomes = some n → d.outcomes ≤ n

/-- The fault of a limit that a demand exceeds. -/
def excess? (limits : Limits μ) (d : Demand) : Option (Fault ρ μ) :=
  ((Limits.exceeded? limits.maxDepth d.depth).map .tooDeep).or
    (((Limits.exceeded? limits.maxRolls d.rolls).map fun _ => .tooManyRolls).or
      ((Limits.exceeded? limits.maxOutcomes d.outcomes).map .tooManyOutcomes))

/-- The fault of the limit that is the first to be exceeded by the events of a log. -/
def firstExcess? (limits : Limits μ) (d : Demand) : List (Event ρ μ) → Option (Fault ρ μ)
  | [] => d.excess? limits
  | e :: log => (d.excess? limits).or ((d.add e).firstExcess? limits log)

variable {limits : Limits μ} {d : Demand}

/-! ## At one time -/

omit [Scalar ρ] in
/-- No limit is exceeded by a demand that fits. -/
lemma excess?_eq_none_iff : (d.excess? limits : Option (Fault ρ μ)) = none ↔ d.Fits limits := by
  simp only [excess?, Option.or_eq_none_iff, Option.map_eq_none_iff, Limits.exceeded?_eq_none_iff]
  exact ⟨fun ⟨hdepth, hrolls, houtcomes⟩ => ⟨hdepth, hrolls, houtcomes⟩,
    fun h => ⟨h.depth, h.rolls, h.outcomes⟩⟩

/-- A demand that fits exceeds no limit. -/
lemma Fits.exceeded? (h : d.Fits limits) : Limits.exceeded? limits.maxDepth d.depth = none ∧
    Limits.exceeded? limits.maxRolls d.rolls = none ∧
      Limits.exceeded? limits.maxOutcomes d.outcomes = none := by
  simp only [Limits.exceeded?_eq_none_iff]
  exact ⟨h.depth, h.rolls, h.outcomes⟩

/-- A demand that fits did so before an event. -/
lemma Fits.of_add {e : Event ρ μ} (h : (d.add e).Fits limits) : d.Fits limits := by
  cases e with
  | called => exact ⟨fun n hn => Nat.le_trans (Nat.le_max_left ..) (h.depth n hn), h.rolls, h.outcomes⟩
  | rolled count sides =>
    exact ⟨h.depth, fun n hn => Nat.le_trans (Nat.le_add_right ..) (h.rolls n hn), h.outcomes⟩
  | measured n =>
    exact ⟨h.depth, h.rolls, fun n hn => Nat.le_trans (Nat.le_max_left ..) (h.outcomes n hn)⟩
  | _ => exact ⟨h.depth, h.rolls, h.outcomes⟩

/-- A call is too deep if as many calls are under way as the limit allows. -/
lemma excess?_called (h : d.Fits limits) :
    ((d.add (.called : Event ρ μ)).excess? limits : Option (Fault ρ μ)) =
      (limits.maxDepth.filter (· ≤ d.underWay)).map .tooDeep := by
  obtain ⟨hdepth, hrolls, houtcomes⟩ := h.exceeded?
  simp [excess?, add, Limits.exceeded?_max hdepth, hrolls, houtcomes, Limits.exceeded?_succ]

/-- Dice are too many if they exceed the limit together with those that were rolled before. -/
lemma excess?_rolled (h : d.Fits limits) (count sides : Nat) :
    ((d.add (.rolled count sides : Event ρ μ)).excess? limits : Option (Fault ρ μ)) =
      (Limits.exceeded? limits.maxRolls (d.rolls + count)).map fun _ => .tooManyRolls := by
  obtain ⟨hdepth, -, houtcomes⟩ := h.exceeded?
  simp [excess?, add, hdepth, houtcomes]

/-- Outcomes are too many if they exceed the limit at once. -/
lemma excess?_measured (h : d.Fits limits) (outcomes : Nat) :
    ((d.add (.measured outcomes : Event ρ μ)).excess? limits : Option (Fault ρ μ)) =
      (Limits.exceeded? limits.maxOutcomes outcomes).map .tooManyOutcomes := by
  obtain ⟨hdepth, hrolls, houtcomes⟩ := h.exceeded?
  simp [excess?, add, hdepth, hrolls, Limits.exceeded?_max houtcomes]

/-! ## Along a log -/

variable {log log' : List (Event ρ μ)}

/-- The demand of two logs in turn. -/
lemma after_append (d : Demand) (log log' : List (Event ρ μ)) :
    d.after (log ++ log') = (d.after log).after log' := List.foldl_append

/-- A demand that fits at the end of a log did so at its beginning. -/
lemma Fits.of_after (h : (d.after log).Fits limits) : d.Fits limits := by
  induction log generalizing d with
  | nil => exact h
  | cons e log ih => exact (ih h).of_add

/-- A limit that is exceeded at the beginning is the first. -/
lemma excess?_or_firstExcess? (d : Demand) (log : List (Event ρ μ)) :
    (d.excess? limits).or (d.firstExcess? limits log) = d.firstExcess? limits log := by
  cases log with
  | nil => exact Option.or_self
  | cons e log => rw [firstExcess?, ← Option.or_assoc, Option.or_self]

/-- The limits along two logs in turn. -/
theorem firstExcess?_append (d : Demand) (log log' : List (Event ρ μ)) :
    d.firstExcess? limits (log ++ log') =
      (d.firstExcess? limits log).or ((d.after log).firstExcess? limits log') := by
  induction log generalizing d with
  | nil => exact (excess?_or_firstExcess? d log').symm
  | cons e log ih =>
    rw [List.cons_append, firstExcess?, firstExcess?, ih, Option.or_assoc]
    rfl

/-- No limit is exceeded along a log if none is at its end. -/
theorem firstExcess?_eq_none_iff :
    d.firstExcess? limits log = none ↔ (d.after log).Fits limits := by
  induction log generalizing d with
  | nil => exact excess?_eq_none_iff
  | cons e log ih =>
    rw [firstExcess?, Option.or_eq_none_iff, ih, excess?_eq_none_iff]
    exact and_iff_right_of_imp fun h => h.of_after.of_add

/-- The limit that is the first to be exceeded after an event. -/
lemma firstExcess?_cons (h : d.Fits limits) (e : Event ρ μ) (log : List (Event ρ μ)) :
    d.firstExcess? limits (e :: log) = (d.add e).firstExcess? limits log := by
  rw [firstExcess?, excess?_eq_none_iff.2 h, Option.none_or]

/-- Events that count for no limit add nothing. -/
lemma after_of_uncounted (hlog : ∀ e ∈ log, ∀ d : Demand, d.add e = d) : d.after log = d := by
  induction log with
  | nil => rfl
  | cons e log ih =>
    rw [List.forall_mem_cons] at hlog
    show (d.add e).after log = d
    rw [hlog.1 d, ih hlog.2]

/-- Events that count for no limit exceed none. -/
lemma firstExcess?_of_uncounted (hlog : ∀ e ∈ log, ∀ d : Demand, d.add e = d) :
    d.firstExcess? limits log = d.excess? limits := by
  induction log with
  | nil => rfl
  | cons e log ih =>
    rw [List.forall_mem_cons] at hlog
    rw [firstExcess?, hlog.1 d, ih hlog.2, Option.or_self]

/-- Outcomes that are asked for are neither calls nor dice. -/
lemma after_measured (d : Demand) (sizes : List Nat) :
    (d.after (sizes.map (.measured : Nat → Event ρ μ))).underWay = d.underWay ∧
      (d.after (sizes.map (.measured : Nat → Event ρ μ))).rolls = d.rolls := by
  induction sizes generalizing d with
  | nil => exact ⟨rfl, rfl⟩
  | cons n sizes ih => exact ih (d.add (.measured n : Event ρ μ))

/-- Outcomes that are asked for one after the other exceed the limit where the first of them does. -/
lemma firstExcess?_measured (h : d.Fits limits) (sizes : List Nat) :
    d.firstExcess? limits (sizes.map (.measured : Nat → Event ρ μ)) =
      (sizes.findSome? (Limits.exceeded? limits.maxOutcomes)).map .tooManyOutcomes := by
  induction sizes generalizing d with
  | nil => exact excess?_eq_none_iff.2 h
  | cons n sizes ih =>
    have hadd := excess?_measured (ρ := ρ) h n
    rw [List.map_cons, firstExcess?_cons h, List.findSome?_cons]
    cases hn : Limits.exceeded? limits.maxOutcomes n with
    | none =>
      rw [hn] at hadd
      exact ih (excess?_eq_none_iff.1 hadd)
    | some limit =>
      rw [hn] at hadd
      rw [← excess?_or_firstExcess?, hadd]
      rfl

/-- The end of a call or of a frame exceeds no limit. -/
lemma firstExcess?_concat {e : Event ρ μ}
    (he : ∀ d : Demand, ((d.add e).excess? limits : Option (Fault ρ μ)) = d.excess? limits) :
    d.firstExcess? limits (log ++ [e]) = d.firstExcess? limits log := by
  rw [firstExcess?_append, firstExcess?, firstExcess?, he, Option.or_self]
  rw [show (d.after log).excess? limits = (d.after log).firstExcess? limits [] from rfl,
    ← firstExcess?_append, List.append_nil]

end Demand

end DiceCalculus
