import DiceCalculus.Meaning.Call
import DiceCalculus.Proofs.Results

set_option autoImplicit false
set_option relaxedAutoImplicit false

/-!
# The faults of an evaluation

That a law does not have mass one is noticed at the end, when a session is asked for it. Nothing
that is calculated on the way fails with that cause.

## Main definitions

* `Fault.IsOrdinary` — a fault other than that of a law without mass one.
* `FailsOrdinarily` — a calculation that fails with ordinary faults only.

## Main results

Every calculation of an evaluation fails with ordinary faults only.
-/

namespace DiceCalculus

variable {ρ μ : Type} {α β : Type}

/-- A fault other than that of a law without mass one. -/
def Fault.IsOrdinary (f : Fault ρ μ) : Prop := ∀ total, f ≠ .notNormalized total

/-- A calculation that fails with ordinary faults only. -/
def FailsOrdinarily (x : Except (Fault ρ μ) α) : Prop := ∀ f, x = .error f → f.IsOrdinary

namespace FailsOrdinarily

/-- A result is no failure. -/
lemma ok (a : α) : FailsOrdinarily (.ok a : Except (Fault ρ μ) α) := nofun

/-- A failure with an ordinary fault. -/
lemma error {f : Fault ρ μ} (h : f.IsOrdinary) :
    FailsOrdinarily (.error f : Except (Fault ρ μ) α) := fun _ he => Except.error.inj he ▸ h

/-- Two steps in turn fail as one of them does. -/
lemma bind {x : Except (Fault ρ μ) α} {f : α → Except (Fault ρ μ) β} (hx : FailsOrdinarily x)
    (hf : ∀ a, FailsOrdinarily (f a)) : FailsOrdinarily (x >>= f) := by
  cases x with
  | error e => exact error (hx e rfl)
  | ok a => exact hf a

/-- A function of a result fails as the calculation of the result does. -/
lemma map {x : Except (Fault ρ μ) α} (f : α → β) (hx : FailsOrdinarily x) :
    FailsOrdinarily (f <$> x) := by
  cases x with
  | error e => exact error (hx e rfl)
  | ok a => exact ok (f a)

/-- A step for every item of a list fails as one of these steps does. -/
lemma mapM {f : α → Except (Fault ρ μ) β} (hf : ∀ a, FailsOrdinarily (f a)) (as : List α) :
    FailsOrdinarily (as.mapM f) := by
  induction as with
  | nil => exact ok []
  | cons a as ih =>
    rw [List.mapM_cons]
    exact bind (hf a) fun b => bind ih fun bs => ok (b :: bs)

end FailsOrdinarily

/-! ## Statements and arguments -/

/-- A step of a statement list that has no value. -/
lemma Flow.failsOrdinarily_result (f : Flow α) :
    FailsOrdinarily (f.result (ρ := ρ) (μ := μ)) := by
  rcases f with (_ | a) | a
  · exact .error nofun
  · exact .ok a
  · exact .ok a

/-- An argument that is missing at a position. -/
lemma Slots.failsOrdinarily_nth (args : Slots α) (position : Nat) :
    FailsOrdinarily (args.nth (ρ := ρ) (μ := μ) position) := by
  unfold nth
  split
  · exact .ok _
  · exact .error nofun

/-- An argument that is missing under a keyword. -/
lemma Slots.failsOrdinarily_firstOf (args : Slots α) (keyword : String) :
    FailsOrdinarily (args.firstOf (ρ := ρ) (μ := μ) keyword) := by
  unfold firstOf
  split
  · exact .ok _
  · exact .error nofun

/-! ## Values -/

variable [Scalar ρ]

/-- A value that is no number. -/
lemma Value.failsOrdinarily_toNumber (v : Value ρ μ) : FailsOrdinarily v.toNumber := by
  cases v with
  | number x => exact .ok x
  | sequence vs => exact .error nofun
  | law l => exact .error nofun

/-- Numbers do not fail to be numbers. -/
lemma Value.mapM_toNumber (xs : List (Number ρ)) :
    (xs.map (Value.number (μ := μ))).mapM Value.toNumber = .ok xs := by
  refine (Except.mapM_eq_ok_map (g := fun v => v.toNumber.toOption.getD .zero) fun v hv => ?_).trans ?_
  · obtain ⟨x, -, rfl⟩ := List.mem_map.1 hv
    rfl
  · rw [List.map_map]
    exact congrArg Except.ok (List.map_id xs)

/-! ## Operands -/

/-- Operators fail at a division by zero only. -/
lemma Operator.failsOrdinarily_apply (op : Operator) (x y : Number ρ) :
    FailsOrdinarily (op.apply (μ := μ) x y) := by
  unfold apply
  split
  · exact .ok _
  · exact .error nofun

/-- Operators need a pair of numbers. -/
lemma Operator.failsOrdinarily_combine (op : Operator) (as : List (Atom ρ)) :
    FailsOrdinarily (op.combine (μ := μ) as) := by
  unfold combine
  split
  · exact .map _ (op.failsOrdinarily_apply _ _)
  · exact .error nofun
  · exact .error nofun

namespace Dice

/-- A number that is no number of dice. -/
lemma failsOrdinarily_count (x : Number ρ) : FailsOrdinarily (count (μ := μ) x) := by
  unfold count
  split
  · split
    · exact .ok _
    · exact .error nofun
  · exact .error nofun

/-- A number that is no number of sides. -/
lemma failsOrdinarily_sides (x : Number ρ) : FailsOrdinarily (sides (μ := μ) x) := by
  unfold sides
  split
  · split
    · exact .ok _
    · exact .error nofun
  · exact .error nofun

omit [Scalar ρ] in
/-- A die that was not rolled. -/
lemma failsOrdinarily_number (a : Atom ρ) : FailsOrdinarily (number (μ := μ) a) := by
  cases a with
  | absent => exact .error nofun
  | number x => exact .ok x

omit [Scalar ρ] in
/-- An outcome that is no number. -/
lemma failsOrdinarily_scalar (o : Outcome ρ) : FailsOrdinarily (scalar (μ := μ) o) := by
  unfold scalar
  split
  · exact failsOrdinarily_number _
  · exact .error nofun

/-- An outcome that is no pair of operands of a roll. -/
lemma failsOrdinarily_operands (as : List (Atom ρ)) :
    FailsOrdinarily (operands (μ := μ) as) := by
  unfold operands
  split
  · exact .bind (failsOrdinarily_number _) fun n => .bind (failsOrdinarily_count n) fun _ =>
      .bind (failsOrdinarily_number _) fun m => .bind (failsOrdinarily_sides m) fun _ => .ok _
  · exact .error nofun

end Dice

/-! ## Laws -/

variable [Mass μ] (limits : Limits μ)

/-- A value that has no law. -/
lemma Value.failsOrdinarily_toLaw (v : Value ρ μ) : FailsOrdinarily v.toLaw := by
  cases v with
  | number x => exact .ok _
  | sequence vs => exact .error nofun
  | law l => exact .ok l

/-- A binding that has no law. -/
lemma Binding.failsOrdinarily_toLaw (b : Binding ρ μ) : FailsOrdinarily b.toLaw := by
  cases b with
  | value v => exact v.failsOrdinarily_toLaw
  | law l => exact .ok l
  | laws ls => exact .error nofun

/-- A binding with an item that has no law. -/
lemma Binding.failsOrdinarily_toLaws (b : Binding ρ μ) : FailsOrdinarily b.toLaws := by
  cases b with
  | value v => exact .mapM Value.failsOrdinarily_toLaw _
  | law l => exact .ok _
  | laws ls => exact .ok ls

/-- A fold fails as the function does. -/
lemma Law.failsOrdinarily_fold {f : List (Atom ρ) → Except (Fault ρ μ) (Atom ρ)}
    (hf : ∀ as, FailsOrdinarily (f as)) (l : Law ρ μ) : FailsOrdinarily (l.fold f) :=
  .bind (.mapM (fun _ => .bind (hf _) fun _ => .ok _) _) fun _ => .ok _

namespace Limits

omit [Mass μ] [Scalar ρ] in
/-- A law that would have too many outcomes. -/
lemma failsOrdinarily_checkOutcomes (outcomes : Nat) :
    FailsOrdinarily (limits.checkOutcomes (ρ := ρ) outcomes) := by
  unfold checkOutcomes
  split
  · split
    · exact .ok ()
    · exact .error nofun
  · exact .ok ()

/-- A joint law that would have too many outcomes. -/
lemma failsOrdinarily_product (l l' : Law ρ μ) : FailsOrdinarily (limits.product l l') :=
  .bind (limits.failsOrdinarily_checkOutcomes _) fun _ => .ok _

/-- A die that would have too many sides. -/
lemma failsOrdinarily_uniform (sides : Nat) :
    FailsOrdinarily (limits.uniform sides : Except _ (Law ρ μ)) :=
  .bind (limits.failsOrdinarily_checkOutcomes _) fun _ => .ok _

end Limits

namespace Law

/-- An operator between laws. -/
lemma failsOrdinarily_operate (op : Operator) (l l' : Law ρ μ) :
    FailsOrdinarily (operate limits op l l') :=
  .bind (limits.failsOrdinarily_product l l') fun joint =>
    failsOrdinarily_fold op.failsOrdinarily_combine joint

/-- The maximum of a law and of a list of laws. -/
lemma failsOrdinarily_maximumFrom (start : Law ρ μ) (ls : List (Law ρ μ)) :
    FailsOrdinarily (maximumFrom limits start ls) := by
  induction ls generalizing start with
  | nil => exact .ok start
  | cons l ls ih =>
    exact .bind (limits.failsOrdinarily_product start l) fun joint =>
      .bind (failsOrdinarily_fold (fun _ => .ok _) joint) ih

/-- The maximum of a list of laws. -/
lemma failsOrdinarily_maximum (ls : List (Law ρ μ)) : FailsOrdinarily (maximum limits ls) :=
  failsOrdinarily_maximumFrom limits _ ls

end Law

namespace Dice

/-- Dice added to a law. -/
lemma failsOrdinarily_addDice (die : Law ρ μ) (count : Nat) (sum : Law ρ μ) :
    FailsOrdinarily (addDice limits die count sum) := by
  induction count generalizing sum with
  | zero => exact .ok sum
  | succ count ih => exact .bind (Law.failsOrdinarily_operate limits .add sum die) ih

/-- The sum of dice. -/
lemma failsOrdinarily_sumLaw (count sides : Nat) :
    FailsOrdinarily (sumLaw limits count sides : Except _ (Law ρ μ)) :=
  .bind (limits.failsOrdinarily_uniform sides) fun die => failsOrdinarily_addDice limits die count _

/-- The mixture over the operands of a roll. -/
lemma failsOrdinarily_mixSums (es : List (Outcome ρ × μ)) (mixture : Law ρ μ) :
    FailsOrdinarily (mixSums limits es mixture) := by
  induction es generalizing mixture with
  | nil => exact .ok mixture
  | cons e es ih =>
    exact .bind (failsOrdinarily_operands _) fun p =>
      .bind (failsOrdinarily_sumLaw limits p.1 p.2) fun _ => ih _

/-- The sum of a roll. -/
lemma failsOrdinarily_law (l l' : Law ρ μ) : FailsOrdinarily (law limits l l') :=
  .bind (limits.failsOrdinarily_product l l') fun _ => failsOrdinarily_mixSums limits _ _

/-- The dice of a roll. -/
lemma failsOrdinarily_laws (l l' : Law ρ μ) : FailsOrdinarily (laws limits l l') := by
  have hfaces : FailsOrdinarily (weightedFaces limits l') :=
    .mapM (fun _ => .bind (failsOrdinarily_scalar _) fun x => .bind (failsOrdinarily_sides x)
      fun m => .bind (limits.failsOrdinarily_uniform m) fun _ => .ok _) _
  have hgreatest : FailsOrdinarily (greatestCount (μ := μ) l.keys) :=
    .bind (.mapM (fun _ => .bind (failsOrdinarily_scalar _) failsOrdinarily_count) _) fun _ =>
      .ok _
  have hreach (position : Nat) : FailsOrdinarily (reach l position) :=
    .bind (Law.failsOrdinarily_fold (Operator.failsOrdinarily_combine .ge) _) fun _ => .ok _
  exact .bind hfaces fun _ => .bind hgreatest fun _ => .mapM (fun i => .bind (hreach (i + 1))
    fun _ => .ok _) _

end Dice

end DiceCalculus
