import Mathlib.Algebra.BigOperators.Ring.List
import Mathlib.Algebra.Order.BigOperators.Group.List
import Mathlib.Algebra.Order.Ring.Rat
import Mathlib.Tactic.FieldSimp
import Mathlib.Tactic.Positivity
import Mathlib.Tactic.Ring
import DiceCalculus.Proofs.Sampler.Answers

set_option autoImplicit false
set_option relaxedAutoImplicit false

/-!
# Chances

With fair dice every list of faces that answers a request is equally likely. The expected value of
a computation averages over these lists at every request; the chance of an event is the expected
value of its indicator.

## Main definitions

* `faceLists` — all lists of faces of a number of dice with a number of sides.
* `rollAverage` — the average of a function of the faces of a roll.
* `Sampler.expect` — the expected value of a function of the result of a computation.
* `Sampler.chance` — the chance that the result of a computation has a property.

## Main results

* `mem_faceLists`, `length_faceLists` — the lists of faces are the answers of dice, and how many
  there are.
* `Sampler.expect_bind` — the expected value of a computation and then another.
* `Sampler.expect_eq_zero_iff` — a function that is not negative is expected to be zero exactly if
  it is zero at every result.
-/

namespace DiceCalculus

/-! ## Lists of faces -/

/-- All lists of faces of a number of dice with a number of sides. -/
def faceLists (sides : Nat) : (count : Nat) → List (List UInt32)
  | 0 => [[]]
  | count + 1 => (List.range sides).flatMap fun i =>
    (faceLists sides count).map fun faces => .ofNat (i + 1) :: faces

/-- The lists of faces are the answers of dice. -/
theorem mem_faceLists {sides count : Nat} {faces : List UInt32} :
    faces ∈ faceLists sides count ↔ IsRoll count sides faces := by
  induction count generalizing faces with
  | zero =>
    simp only [faceLists, List.mem_singleton, IsRoll, List.length_eq_zero_iff]
    refine ⟨fun h => ⟨h, by simp [h]⟩, fun h => h.1⟩
  | succ count ih =>
    simp only [faceLists, List.mem_flatMap, List.mem_range, List.mem_map, ih, IsRoll]
    constructor
    · rintro ⟨i, hi, faces, ⟨hlen, hfaces⟩, rfl⟩
      exact ⟨congrArg (· + 1) hlen, List.forall_mem_cons.2 ⟨⟨i, hi, rfl⟩, hfaces⟩⟩
    · rintro ⟨hlen, hfaces⟩
      obtain ⟨face, faces, rfl⟩ := List.exists_cons_of_length_eq_add_one hlen
      rw [List.forall_mem_cons] at hfaces
      obtain ⟨⟨i, hi, rfl⟩, hfaces⟩ := hfaces
      exact ⟨i, hi, faces, ⟨Nat.succ.inj hlen, hfaces⟩, rfl⟩

/-- There is a list of faces for every choice of a face for every die. -/
theorem length_faceLists (sides count : Nat) : (faceLists sides count).length = sides ^ count := by
  induction count with
  | zero => rfl
  | succ count ih => simp [faceLists, List.length_flatMap, ih, pow_succ, mul_comm]

/-! ## Averages over a roll -/

/-- The average of a function of the faces of a roll. -/
def rollAverage (count sides : Nat) (h : List UInt32 → ℚ) : ℚ :=
  ((faceLists sides count).map h).sum / (sides : ℚ) ^ count

section Average

variable {count sides : Nat} {h h' : List UInt32 → ℚ}

/-- A roll of no dice has one list of faces, the empty one. -/
@[simp] lemma rollAverage_zero (sides : Nat) (h : List UInt32 → ℚ) :
    rollAverage 0 sides h = h [] := by
  simp [rollAverage, faceLists]

/-- The first die of a roll is averaged over on its own. -/
lemma rollAverage_succ (count sides : Nat) (h : List UInt32 → ℚ) :
    rollAverage (count + 1) sides h =
      1 / sides * ((List.range sides).map fun i =>
        rollAverage count sides fun faces => h (.ofNat (i + 1) :: faces)).sum := by
  have hsum : ((faceLists sides (count + 1)).map h).sum = ((List.range sides).map fun i =>
      ((faceLists sides count).map fun faces => h (.ofNat (i + 1) :: faces)).sum).sum := by
    rw [faceLists]
    induction List.range sides with
    | nil => rfl
    | cons i is ih =>
      rw [List.flatMap_cons, List.map_append, List.sum_append, ih, List.map_map]
      rfl
  unfold rollAverage
  simp only [hsum, div_eq_mul_inv, List.sum_map_mul_right, one_mul, pow_succ, mul_inv]
  ring

/-- Functions that agree on the faces that dice have the same average. -/
lemma rollAverage_congr (hh : ∀ faces, IsRoll count sides faces → h faces = h' faces) :
    rollAverage count sides h = rollAverage count sides h' := by
  unfold rollAverage
  rw [List.map_congr_left fun faces hfaces => hh faces (mem_faceLists.1 hfaces)]

/-- The average of a sum. -/
lemma rollAverage_add (count sides : Nat) (h h' : List UInt32 → ℚ) :
    rollAverage count sides (fun faces => h faces + h' faces) =
      rollAverage count sides h + rollAverage count sides h' := by
  unfold rollAverage
  rw [List.sum_map_add, add_div]

/-- A constant factor moves out of an average. -/
lemma rollAverage_const_mul (count sides : Nat) (c : ℚ) (h : List UInt32 → ℚ) :
    rollAverage count sides (fun faces => c * h faces) = c * rollAverage count sides h := by
  unfold rollAverage
  rw [List.sum_map_mul_left, mul_div_assoc]

/-- The average of a function that is not negative. -/
lemma rollAverage_nonneg (hh : ∀ faces, IsRoll count sides faces → 0 ≤ h faces) :
    0 ≤ rollAverage count sides h := by
  refine div_nonneg (List.sum_nonneg fun x hx => ?_) (by positivity)
  obtain ⟨faces, hfaces, rfl⟩ := List.mem_map.1 hx
  exact hh faces (mem_faceLists.1 hfaces)

/-- A function that is not negative has average zero exactly if it is zero at all faces that dice
have. -/
lemma rollAverage_eq_zero_iff (hh : ∀ faces, IsRoll count sides faces → 0 ≤ h faces) :
    rollAverage count sides h = 0 ↔ ∀ faces, IsRoll count sides faces → h faces = 0 := by
  have hsum : ((faceLists sides count).map h).sum = 0 ↔
      ∀ faces, IsRoll count sides faces → h faces = 0 := by
    have hmap : ∀ x ∈ (faceLists sides count).map h, 0 ≤ x :=
      List.forall_mem_map.2 fun faces hfaces => hh faces (mem_faceLists.1 hfaces)
    refine ⟨fun hzero faces hfaces => ?_, fun hzero => List.sum_eq_zero ?_⟩
    · exact List.all_zero_of_le_zero_le_of_sum_eq_zero hmap hzero
        (List.mem_map_of_mem (mem_faceLists.2 hfaces))
    · exact List.forall_mem_map.2 fun faces hfaces => hzero faces (mem_faceLists.1 hfaces)
  rw [← hsum, rollAverage, div_eq_zero_iff, or_iff_left_iff_imp]
  intro hpow
  -- dice without sides have no faces, unless there are no dice
  refine List.sum_eq_zero fun x hx => ?_
  have hlen := length_faceLists sides count
  rw [show sides ^ count = 0 by exact_mod_cast hpow, List.length_eq_zero_iff] at hlen
  rw [hlen] at hx
  exact absurd hx (List.not_mem_nil)

end Average

/-! ## Expected values -/

namespace Sampler

variable {α β : Type}

/-- The result of a computation that asks for no dice. -/
def result? : Sampler α → Option α
  | done a => some a
  | roll _ _ _ => none

/-- The expected value of a function of the result of a computation. -/
def expect (g : α → ℚ) : Sampler α → ℚ
  | done a => g a
  | roll count sides next => rollAverage count sides fun faces => (next faces).expect g

variable {t : Sampler α} {g h : α → ℚ}

/-- The result of a finished computation is expected. -/
@[simp] lemma expect_done (g : α → ℚ) (a : α) : (done a).expect g = g a := rfl

/-- The expected value after a request is an average over the roll. -/
@[simp] lemma expect_roll (g : α → ℚ) (count sides : Nat) (next : List UInt32 → Sampler α) :
    (roll count sides next).expect g =
      rollAverage count sides fun faces => (next faces).expect g := rfl

/-- The expected value of a computation and then another. -/
theorem expect_bind (t : Sampler α) (f : α → Sampler β) (g : β → ℚ) :
    (t >>= f).expect g = t.expect fun a => (f a).expect g := by
  induction t with
  | done a => rfl
  | roll count sides next ih => exact rollAverage_congr fun faces _ => ih faces

/-- Functions that agree on the results of a computation have the same expected value. -/
lemma expect_congr (hgh : ∀ a, t.Reaches IsRoll a → g a = h a) : t.expect g = t.expect h := by
  induction t with
  | done a => exact hgh a rfl
  | roll count sides next ih =>
    exact rollAverage_congr fun faces hfaces => ih faces fun a ha => hgh a ⟨faces, hfaces, ha⟩

/-- The expected value of a sum. -/
lemma expect_add (t : Sampler α) (g h : α → ℚ) :
    t.expect (fun a => g a + h a) = t.expect g + t.expect h := by
  induction t with
  | done a => rfl
  | roll count sides next ih =>
    simp only [expect_roll, ih]
    exact rollAverage_add _ _ _ _

/-- A constant factor moves out of an expected value. -/
lemma expect_const_mul (t : Sampler α) (c : ℚ) (g : α → ℚ) :
    t.expect (fun a => c * g a) = c * t.expect g := by
  induction t with
  | done a => rfl
  | roll count sides next ih =>
    simp only [expect_roll, ih]
    exact rollAverage_const_mul _ _ _ _

/-- The expected value of a function that is not negative. -/
lemma expect_nonneg (hg : ∀ a, t.Reaches IsRoll a → 0 ≤ g a) : 0 ≤ t.expect g := by
  induction t with
  | done a => exact hg a rfl
  | roll count sides next ih =>
    exact rollAverage_nonneg fun faces hfaces => ih faces fun a ha => hg a ⟨faces, hfaces, ha⟩

/-- A function that is not negative is expected to be zero exactly if it is zero at every
result. -/
theorem expect_eq_zero_iff (hg : ∀ a, t.Reaches IsRoll a → 0 ≤ g a) :
    t.expect g = 0 ↔ ∀ a, t.Reaches IsRoll a → g a = 0 := by
  induction t with
  | done a => exact ⟨fun h b hb => (hb ▸ h : g b = 0), fun h => h a rfl⟩
  | roll count sides next ih =>
    have hg' (faces) (hfaces : IsRoll count sides faces) (a) (ha : (next faces).Reaches IsRoll a) :
        0 ≤ g a := hg a ⟨faces, hfaces, ha⟩
    rw [expect_roll, rollAverage_eq_zero_iff fun faces hfaces => expect_nonneg (hg' faces hfaces)]
    constructor
    · rintro h a ⟨faces, hfaces, ha⟩
      exact (ih faces (hg' faces hfaces)).1 (h faces hfaces) a ha
    · intro h faces hfaces
      exact (ih faces (hg' faces hfaces)).2 fun a ha => h a ⟨faces, hfaces, ha⟩

/-- The chance that the result of a computation has a property. -/
def chance (p : α → Prop) [DecidablePred p] (t : Sampler α) : ℚ :=
  t.expect fun a => if p a then 1 else 0

end Sampler

end DiceCalculus
