import Mathlib.Tactic.Lemma
import DiceCalculus.Law.Dice

set_option autoImplicit false
set_option relaxedAutoImplicit false

/-!
# Calculations with laws, and the sizes they ask for

A calculation with laws counts outcomes against the limit before it makes them. Which sizes it asks
for does not depend on the limit: the limit only decides how far it gets. A calculation is therefore
told apart into the sizes that it asks for, one after the other, and the result that it has if the
limit allows them all.

## Main definitions

* `Calculation` — the sizes that are asked for, and the result without a limit.
* `Calculation.under` — what comes out under limits.
* `Calculation.operate`, `Calculation.maximum`, `Calculation.sum`, `Calculation.dice` — the
  calculations of the operators, of a maximum, of the sum of a roll and of its dice.

## Main results

* `Calculation.under_bind` — under limits, a calculation in steps is taken step by step.
* `Calculation.under_operate`, `Calculation.under_maximum`, `Calculation.under_sum`,
  `Calculation.under_dice` — under limits, these calculations come to the laws of the model.
-/

namespace DiceCalculus

/-- A calculation that counts outcomes against a limit on its way. -/
structure Calculation (ρ μ : Type) (α : Type) where
  /-- The numbers of outcomes that are asked for, up to the end or to a fault. -/
  sizes : List Nat
  /-- What comes out if all of them are allowed. -/
  result : Except (Fault ρ μ) α

variable {ρ μ : Type} {α β γ : Type}

namespace Calculation

/-- A calculation that counts nothing. -/
def ofExcept (x : Except (Fault ρ μ) α) : Calculation ρ μ α := ⟨[], x⟩

/-- A calculation that counts a number of outcomes. -/
def measure (outcomes : Nat) (a : α) : Calculation ρ μ α := ⟨[outcomes], .ok a⟩

/-- A calculation, and then another unless the first ends with a fault. -/
def bind (c : Calculation ρ μ α) (f : α → Calculation ρ μ β) : Calculation ρ μ β :=
  match c.result with
  | .ok a => ⟨c.sizes ++ (f a).sizes, (f a).result⟩
  | .error e => ⟨c.sizes, .error e⟩

instance : Monad (Calculation ρ μ) where
  pure a := ofExcept (.ok a)
  bind := bind

/-- What comes out under limits: the sizes are compared with the limit, one after the other. -/
def under (limits : Limits μ) (c : Calculation ρ μ α) : Except (Fault ρ μ) α := do
  c.sizes.forM limits.checkOutcomes
  c.result

/-! ## Laws of the monad -/

section Monad

variable (c : Calculation ρ μ α) (f : α → Calculation ρ μ β) (g : β → Calculation ρ μ γ)

/-- The calculation that goes on with nothing is the calculation itself. -/
lemma id_map : id <$> c = c := by
  obtain ⟨sizes, _ | a⟩ := c
  · rfl
  · show (⟨sizes ++ [], .ok a⟩ : Calculation ρ μ α) = _
    rw [List.append_nil]

/-- Calculations in turn may be grouped in either way. -/
lemma bind_assoc : c >>= f >>= g = c >>= fun a => f a >>= g := by
  obtain ⟨sizes, _ | a⟩ := c
  · rfl
  · show bind (bind ⟨sizes, .ok a⟩ f) g = bind ⟨sizes, .ok a⟩ fun a => bind (f a) g
    rcases hfa : f a with ⟨sizes', _ | b⟩
    · simp [bind, hfa]
    · simp [bind, hfa, List.append_assoc]

instance : LawfulMonad (Calculation ρ μ) :=
  LawfulMonad.mk' _ id_map (fun _ _ => rfl) bind_assoc

end Monad

/-! ## Under limits -/

section Under

variable (limits : Limits μ)

/-- A calculation that counts nothing comes to its result. -/
@[simp] lemma under_ofExcept (x : Except (Fault ρ μ) α) : (ofExcept x).under limits = x := rfl

/-- A result that is given. -/
@[simp] lemma under_pure (a : α) : (pure a : Calculation ρ μ α).under limits = .ok a := rfl

/-- A size is compared with the limit. -/
@[simp] lemma under_measure (outcomes : Nat) (a : α) :
    (measure outcomes a : Calculation ρ μ α).under limits =
      (do limits.checkOutcomes outcomes; return a) := by
  show (do [outcomes].forM limits.checkOutcomes; pure a) = _
  rw [List.forM_eq_forM, List.forM_cons, List.forM_nil]
  cases limits.checkOutcomes outcomes <;> rfl

/-- Under limits, a calculation in two steps is taken step by step.

**Proof sketch.** By induction on the sizes of the first step: each of them is compared before
anything else happens on either side. -/
@[simp] theorem under_bind (c : Calculation ρ μ α) (f : α → Calculation ρ μ β) :
    (c >>= f).under limits = c.under limits >>= fun a => (f a).under limits := by
  obtain ⟨sizes, result⟩ := c
  induction sizes with
  | nil => cases result <;> rfl
  | cons n sizes ih =>
    have hcons (sizes : List Nat) {δ : Type} (x : Except (Fault ρ μ) δ) :
        (⟨n :: sizes, x⟩ : Calculation ρ μ δ).under limits =
          limits.checkOutcomes n >>= fun _ => (⟨sizes, x⟩ : Calculation ρ μ δ).under limits := by
      unfold under
      rw [List.forM_eq_forM, List.forM_cons]
      cases limits.checkOutcomes (ρ := ρ) n <;> rfl
    have hbind : (⟨n :: sizes, result⟩ >>= f : Calculation ρ μ β) =
        ⟨n :: (⟨sizes, result⟩ >>= f : Calculation ρ μ β).sizes,
          (⟨sizes, result⟩ >>= f : Calculation ρ μ β).result⟩ := by
      cases result <;> rfl
    rw [hbind, hcons, hcons, ih]
    cases limits.checkOutcomes (ρ := ρ) n <;> rfl

/-- Under limits, a calculation for every item of a list is taken item by item. -/
@[simp] lemma under_mapM (f : α → Calculation ρ μ β) (as : List α) :
    (as.mapM f).under limits = as.mapM fun a => (f a).under limits := by
  induction as with
  | nil => rfl
  | cons a as ih =>
    rw [List.mapM_cons, List.mapM_cons, under_bind]
    refine congrArg (_ >>= ·) (funext fun b => ?_)
    rw [under_bind, ih]
    rfl

end Under

/-! ## Joint laws and dice -/

variable [Scalar ρ] [Mass μ]

/-- The joint law of two independent laws. -/
def product (l l' : Law ρ μ) : Calculation ρ μ (Law ρ μ) :=
  measure (l.size * l'.size) (l.product l')

/-- The law of a fair die. -/
def uniform (sides : Nat) : Calculation ρ μ (Law ρ μ) := measure sides (.uniform sides)

/-- The law of an operator between two independent operands. -/
def operate (op : Operator) (l l' : Law ρ μ) : Calculation ρ μ (Law ρ μ) := do
  ofExcept ((← product l l').fold op.combine)

/-- The law of the greatest of a list of independent numbers and of a number given from the start. -/
def maximumFrom (start : Law ρ μ) : List (Law ρ μ) → Calculation ρ μ (Law ρ μ)
  | [] => pure start
  | l :: ls => do
    let joint ← product start l
    maximumFrom (← ofExcept (joint.fold fun as => .ok (Atom.greatest as))) ls

/-- The law of the greatest of a list of independent numbers. -/
def maximum (ls : List (Law ρ μ)) : Calculation ρ μ (Law ρ μ) :=
  maximumFrom (.certain (.number .negInfinity)) ls

/-- A number of independent dice of one law, added to a law. -/
def addDice (die : Law ρ μ) : (count : Nat) → Law ρ μ → Calculation ρ μ (Law ρ μ)
  | 0, sum => pure sum
  | count + 1, sum => do addDice die count (← operate .add sum die)

/-- The law of the sum of a number of fair dice. -/
def sumLaw (count sides : Nat) : Calculation ρ μ (Law ρ μ) := do
  addDice (← uniform sides) count (.certain (.number .zero))

/-- The sums of the rolls that a list of weighted operands stands for, added to a law. -/
def mixSums : List (Outcome ρ × μ) → Law ρ μ → Calculation ρ μ (Law ρ μ)
  | [], mixture => pure mixture
  | (o, p) :: rest, mixture => do
    let (n, m) ← ofExcept (Dice.operands o.atoms)
    let sum ← sumLaw n m
    mixSums rest (mixture.addScaled p sum)

/-- The law of the sum of a roll whose operands have laws. -/
def sum (count sides : Law ρ μ) : Calculation ρ μ (Law ρ μ) := do
  mixSums (← product count sides).entries .empty

/-- The faces of a die whose number of sides has a law. -/
def weightedFaces (sides : Law ρ μ) : Calculation ρ μ (List (Law ρ μ)) :=
  sides.entries.mapM fun e => do
    let n ← ofExcept (do Dice.sides (← Dice.scalar e.1))
    return Law.addScaled .empty e.2 (← uniform n)

/-- The law of each die of a roll whose operands have laws. Only the faces are counted. -/
def dice (count sides : Law ρ μ) : Calculation ρ μ (List (Law ρ μ)) := do
  let faces ← weightedFaces sides
  ofExcept do
    let greatest ← Dice.greatestCount count.keys
    (List.range greatest).mapM fun i => return Dice.dieLaw faces (← Dice.reach count (i + 1))

section Laws

variable (limits : Limits μ)

/-- A joint law within the limit. -/
@[simp] lemma under_product (l l' : Law ρ μ) :
    (product l l').under limits = limits.product l l' := under_measure ..

/-- A fair die within the limit. -/
@[simp] lemma under_uniform (sides : Nat) :
    (uniform sides : Calculation ρ μ _).under limits = limits.uniform sides := under_measure ..

/-- The law of an operator within the limit. -/
@[simp] theorem under_operate (op : Operator) (l l' : Law ρ μ) :
    (operate op l l').under limits = Law.operate limits op l l' := by
  simp only [operate, Law.operate, under_bind, under_product, under_ofExcept]

/-- The law of a maximum within the limit. -/
lemma under_maximumFrom (start : Law ρ μ) (ls : List (Law ρ μ)) :
    (maximumFrom start ls).under limits = Law.maximumFrom limits start ls := by
  induction ls generalizing start with
  | nil => rfl
  | cons l ls ih =>
    simp only [maximumFrom, Law.maximumFrom, under_bind, under_product, under_ofExcept, ih]

/-- The law of a maximum within the limit. -/
@[simp] theorem under_maximum (ls : List (Law ρ μ)) :
    (maximum ls).under limits = Law.maximum limits ls :=
  under_maximumFrom limits _ ls

/-- The law of a sum of dice within the limit. -/
lemma under_addDice (die sum : Law ρ μ) (count : Nat) :
    (addDice die count sum).under limits = Dice.addDice limits die count sum := by
  induction count generalizing sum with
  | zero => rfl
  | succ count ih => simp only [addDice, Dice.addDice, under_bind, under_operate, ih]

/-- The law of a sum of fair dice within the limit. -/
lemma under_sumLaw (count sides : Nat) :
    (sumLaw count sides : Calculation ρ μ _).under limits = Dice.sumLaw limits count sides := by
  simp only [sumLaw, Dice.sumLaw, under_bind, under_uniform, under_addDice]

/-- The law of a mixture of sums within the limit. -/
lemma under_mixSums (operands : List (Outcome ρ × μ)) (mixture : Law ρ μ) :
    (mixSums operands mixture).under limits = Dice.mixSums limits operands mixture := by
  induction operands generalizing mixture with
  | nil => rfl
  | cons e rest ih =>
    obtain ⟨o, p⟩ := e
    simp only [mixSums, Dice.mixSums, under_bind, under_ofExcept, under_sumLaw, ih]

/-- The law of the sum of a roll within the limit. -/
@[simp] theorem under_sum (count sides : Law ρ μ) :
    (sum count sides).under limits = Dice.law limits count sides := by
  simp only [sum, Dice.law, under_bind, under_product, under_mixSums]

/-- The faces of a die within the limit. -/
lemma under_weightedFaces (sides : Law ρ μ) :
    (weightedFaces sides).under limits = Dice.weightedFaces limits sides := by
  unfold weightedFaces Dice.weightedFaces
  rw [under_mapM]
  refine congrArg (fun f => List.mapM f sides.entries) (funext fun e => ?_)
  simp only [under_bind, under_ofExcept, under_uniform, under_pure]
  cases Dice.scalar (μ := μ) e.1 <;> rfl

/-- The laws of the dice of a roll within the limit. -/
@[simp] theorem under_dice (count sides : Law ρ μ) :
    (dice count sides).under limits = Dice.laws limits count sides := by
  simp only [dice, Dice.laws, under_bind, under_weightedFaces, under_ofExcept]

end Laws

end Calculation

end DiceCalculus
