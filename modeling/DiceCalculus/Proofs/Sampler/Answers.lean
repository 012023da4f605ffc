import Mathlib.Tactic.Lemma
import DiceCalculus.Sampler

set_option autoImplicit false
set_option relaxedAutoImplicit false

/-!
# What answers lead to

A request for dice may be answered by any faces, or only by faces that the dice have. What a
computation can come to is a question about the answers that are allowed.

## Main definitions

* `Answers` — the faces by which a request may be answered.
* `IsRoll` — the answers that dice give: as many faces as dice, each from one to the number of sides.
* `Answers.dice` — the answers of dice, unless they have no sides or too many.
* `Sampler.Reaches` — some allowed answers lead to a result.
* `Roller.Answers` — a roller that gives allowed answers only.

## Main results

* `isRoll_iff` — a face is a word between one and the number of sides.
* `Sampler.reaches_bind_iff` — a computation and then another.
* `Sampler.reaches_play` — a roller leads to a result that its answers lead to.
-/

namespace DiceCalculus

/-- The faces by which a request for a number of dice with a number of sides may be answered. -/
abbrev Answers := (count sides : Nat) → List UInt32 → Prop

/-- Any faces at all, in any number. -/
def Answers.any : Answers := fun _ _ _ => True

/-- The answers of dice: as many faces as dice, each from one to the number of sides. -/
def IsRoll : Answers := fun count sides faces =>
  faces.length = count ∧ ∀ face ∈ faces, ∃ i < sides, face = .ofNat (i + 1)

/-- The answers of dice to every request with a word other than zero as the number of sides. -/
def Answers.dice : Answers := fun count sides faces =>
  0 < sides → sides < UInt32.size → IsRoll count sides faces

/-- A word between one and the number of sides is a face. -/
lemma exists_face {sides : Nat} {face : UInt32} (hpos : 1 ≤ face.toNat)
    (hle : face.toNat ≤ sides) : ∃ i < sides, face = .ofNat (i + 1) := by
  refine ⟨face.toNat - 1, by omega, ?_⟩
  rw [Nat.sub_add_cancel hpos, UInt32.ofNat_toNat]

/-- The faces of dice whose sides are counted by a word are the words between one and the number
of sides. -/
theorem isRoll_iff {count sides : Nat} (hsides : sides < UInt32.size) (faces : List UInt32) :
    IsRoll count sides faces ↔
      faces.length = count ∧ ∀ face ∈ faces, 1 ≤ face.toNat ∧ face.toNat ≤ sides := by
  refine and_congr_right fun _ => forall₂_congr fun face _ => ⟨?_, fun h => exists_face h.1 h.2⟩
  rintro ⟨i, hi, rfl⟩
  rw [UInt32.toNat_ofNat_of_lt' (by omega)]
  omega

namespace Sampler

variable {α β : Type}

/-- Some allowed answers lead a computation to a result. -/
def Reaches (answers : Answers) : Sampler α → α → Prop
  | done a, b => b = a
  | roll count sides next, b => ∃ faces, answers count sides faces ∧ (next faces).Reaches answers b

variable {answers : Answers}

/-- A finished computation has its result. -/
@[simp] lemma reaches_done {a b : α} : (done a).Reaches answers b ↔ b = a := Iff.rfl

/-- A request leads to whatever an allowed answer leads to. -/
@[simp] lemma reaches_roll {count sides : Nat} {next : List UInt32 → Sampler α} {b : α} :
    (roll count sides next).Reaches answers b ↔
      ∃ faces, answers count sides faces ∧ (next faces).Reaches answers b := Iff.rfl

/-- A computation and then another lead to what the second leads to from a result of the first. -/
theorem reaches_bind_iff {t : Sampler α} {f : α → Sampler β} {b : β} :
    (t >>= f).Reaches answers b ↔ ∃ a, t.Reaches answers a ∧ (f a).Reaches answers b := by
  induction t with
  | done a => simp
  | roll count sides next ih =>
    simp only [roll_bind, reaches_roll, ih]
    constructor
    · rintro ⟨faces, hfaces, a, ha, hb⟩
      exact ⟨a, ⟨faces, hfaces, ha⟩, hb⟩
    · rintro ⟨a, ⟨faces, hfaces, ha⟩, hb⟩
      exact ⟨faces, hfaces, a, ha, hb⟩

/-- A computation of a pair, followed by a function of the second part. -/
lemma reaches_bind_done_iff {t : Sampler (α × β)} {g : β → β} {a : α} {b : β} :
    (t >>= fun p => done (p.1, g p.2)).Reaches answers (a, b) ↔
      ∃ c, t.Reaches answers (a, c) ∧ b = g c := by
  simp only [reaches_bind_iff, reaches_done, Prod.mk.injEq]
  constructor
  · rintro ⟨⟨_, c⟩, h, rfl, rfl⟩
    exact ⟨c, h, rfl⟩
  · rintro ⟨c, h, rfl⟩
    exact ⟨(a, c), h, rfl, rfl⟩

/-- More answers lead to more results. -/
lemma Reaches.mono {answers' : Answers} (h : ∀ n m faces, answers n m faces → answers' n m faces)
    {t : Sampler α} {a : α} (ha : t.Reaches answers a) : t.Reaches answers' a := by
  induction t with
  | done _ => exact ha
  | roll count sides next ih =>
    obtain ⟨faces, hfaces, ha⟩ := ha
    exact ⟨faces, h _ _ _ hfaces, ih faces ha⟩

end Sampler

/-- A roller that answers every request by allowed faces. -/
def Roller.Answers (σ : Type) [Roller σ] (answers : Answers) : Prop :=
  ∀ (count sides : Nat) (s : σ), answers count sides (Roller.roll count sides s).1

namespace Sampler

variable {α σ : Type} [Roller σ] {answers : Answers}

/-- A roller leads to a result that its answers lead to. -/
theorem reaches_play (hσ : Roller.Answers σ answers) (t : Sampler α) (s : σ) :
    t.Reaches answers (t.play s).1 := by
  induction t generalizing s with
  | done a => rfl
  | roll count sides next ih => exact ⟨_, hσ count sides s, ih _ _⟩

end Sampler

end DiceCalculus
