import DiceCalculus.Proofs.Congruence
import DiceCalculus.Proofs.Run.Play

set_option autoImplicit false
set_option relaxedAutoImplicit false

/-!
# The faces of a roll

A roll that is sampled has a result if its operands have values that are accepted, and if the dice
are within the budget. Then the roller is asked once, and its faces are read as integers.

## Main definitions

* `Meaning.IsDealt` — a roll is dealt faces.

## Main results

* `Meaning.play_items_dice_eq_ok_iff`, `Meaning.play_value_dice_eq_ok_iff` — the dice and the sum of
  a roll, by the faces that it is dealt.
-/

namespace DiceCalculus

variable {ρ μ σ : Type} [Scalar ρ] [Roller σ] {s t : Session ρ μ} {r r' : σ}

namespace Run

/-- A calculation and then a computation have a result if both do. -/
lemma play_ofExcept_bind_eq_ok_iff {α β : Type} {x : Except (Fault ρ μ) α} {f : α → Run ρ μ β}
    {b : β} : (ofExcept x >>= f).play s r = (.ok b, t, r') ↔
      ∃ a, x = .ok a ∧ (f a).play s r = (.ok b, t, r') := by
  rw [play_bind, play_of_done r (exec_ofExcept x s)]
  cases x <;> simp [Except.mapError]

/-- A request for dice has a result if the budget allows it: the faces that the roller deals. -/
lemma play_roll_eq_ok_iff {count sides : Nat} {faces : List UInt32} :
    (roll count sides).play s r = (.ok faces, t, r') ↔
      Limits.allows s.limits.maxRolls (s.spent + count) ∧ Roller.roll count sides r = (faces, r') ∧
        t = { s with spent := s.spent + count } := by
  rw [play_roll]
  split
  · next h =>
    rcases Roller.roll count sides r with ⟨faces', r''⟩
    constructor
    · rintro ⟨⟩
      exact ⟨h, rfl, rfl⟩
    · rintro ⟨-, ⟨⟩, rfl⟩
      rfl
  · next h => exact iff_of_false nofun fun hallowed => h hallowed.1

end Run

namespace Meaning

/-- A roll is dealt faces. First the number of sides is sampled and then that of dice, the budget
allows the dice together with those that were rolled before, and the roller is asked for them. -/
def IsDealt (count sides : Meaning ρ μ) (s : Session ρ μ) (r : σ) (n m : Nat) (faces : List UInt32)
    (t : Session ρ μ) (r' : σ) : Prop :=
  ∃ v s₁ r₁ w s₂ r₂, sides.value.play s r = (.ok v, s₁, r₁) ∧ v.toNumber.bind Dice.sides = .ok m ∧
    count.value.play s₁ r₁ = (.ok w, s₂, r₂) ∧ w.toNumber.bind Dice.count = .ok n ∧
    Limits.allows s₂.limits.maxRolls (s₂.spent + n) ∧ Roller.roll n m r₂ = (faces, r') ∧
    t = { s₂ with spent := s₂.spent + n }

variable {count sides : Meaning ρ μ}

/-- The number of sides of a roll that is dealt faces is positive, and an integer of 32 bits. -/
lemma IsDealt.sides_bounds {n m : Nat} {faces : List UInt32}
    (h : IsDealt count sides s r n m faces t r') : 0 < m ∧ m < 2 ^ 31 := by
  obtain ⟨v, -, -, -, -, -, -, hm, -⟩ := h
  obtain ⟨x, -, hm⟩ := Except.bind_eq_ok_iff.1 hm
  exact Dice.sides_bounds hm

/-- The faces of a roll are read as integers. -/
lemma play_faces_eq_ok_iff {xs : List (Number ρ)} :
    (Meaning.faces count sides).play s r = (.ok xs, t, r') ↔ ∃ n m faces,
      IsDealt count sides s r n m faces t r' ∧ xs = faces.map fun face => .int face.toInt32 := by
  unfold Meaning.faces IsDealt
  constructor
  · intro h
    obtain ⟨v, s₁, r₁, hv, h⟩ := (Run.play_bind_eq_ok_iff _).1 h
    obtain ⟨x, hx, h⟩ := Run.play_ofExcept_bind_eq_ok_iff.1 h
    obtain ⟨m, hm, h⟩ := Run.play_ofExcept_bind_eq_ok_iff.1 h
    obtain ⟨w, s₂, r₂, hw, h⟩ := (Run.play_bind_eq_ok_iff _).1 h
    obtain ⟨y, hy, h⟩ := Run.play_ofExcept_bind_eq_ok_iff.1 h
    obtain ⟨n, hn, h⟩ := Run.play_ofExcept_bind_eq_ok_iff.1 h
    obtain ⟨faces, _, _, hroll, h⟩ := (Run.play_bind_eq_ok_iff _).1 h
    cases h
    exact ⟨n, m, faces, ⟨v, s₁, r₁, w, s₂, r₂, hv, Except.bind_eq_ok_iff.2 ⟨x, hx, hm⟩, hw,
      Except.bind_eq_ok_iff.2 ⟨y, hy, hn⟩, Run.play_roll_eq_ok_iff.1 hroll⟩, rfl⟩
  · rintro ⟨n, m, faces, ⟨v, s₁, r₁, w, s₂, r₂, hv, hm, hw, hn, hroll⟩, rfl⟩
    obtain ⟨x, hx, hm⟩ := Except.bind_eq_ok_iff.1 hm
    obtain ⟨y, hy, hn⟩ := Except.bind_eq_ok_iff.1 hn
    refine (Run.play_bind_eq_ok_iff _).2 ⟨v, s₁, r₁, hv, ?_⟩
    refine Run.play_ofExcept_bind_eq_ok_iff.2 ⟨x, hx, Run.play_ofExcept_bind_eq_ok_iff.2 ⟨m, hm, ?_⟩⟩
    refine (Run.play_bind_eq_ok_iff _).2 ⟨w, s₂, r₂, hw, ?_⟩
    refine Run.play_ofExcept_bind_eq_ok_iff.2 ⟨y, hy, Run.play_ofExcept_bind_eq_ok_iff.2 ⟨n, hn, ?_⟩⟩
    exact (Run.play_bind_eq_ok_iff _).2 ⟨faces, t, r', Run.play_roll_eq_ok_iff.2 hroll, rfl⟩

/-- What is computed from the faces of a roll. -/
lemma play_faces_bind_pure_eq_ok_iff {β : Type} {f : List (Number ρ) → β} {b : β} :
    (Meaning.faces count sides >>= fun xs => pure (f xs)).play s r = (.ok b, t, r') ↔ ∃ n m faces,
      IsDealt count sides s r n m faces t r' ∧ b = f (faces.map fun face => .int face.toInt32) := by
  rw [Run.play_bind_eq_ok_iff]
  constructor
  · rintro ⟨xs, _, _, hfaces, hresult⟩
    cases hresult
    obtain ⟨n, m, faces, hdealt, rfl⟩ := play_faces_eq_ok_iff.1 hfaces
    exact ⟨n, m, faces, hdealt, rfl⟩
  · rintro ⟨n, m, faces, hdealt, rfl⟩
    exact ⟨_, t, r', play_faces_eq_ok_iff.2 ⟨n, m, faces, hdealt, rfl⟩, rfl⟩

variable [Mass μ]

/-- The components of a roll that is sampled are its faces. -/
theorem play_items_dice_eq_ok_iff {vs : List (Value ρ μ)} :
    (dice count sides).items.play s r = (.ok vs, t, r') ↔ ∃ n m faces,
      IsDealt count sides s r n m faces t r' ∧
        vs = (faces.map fun face => Number.int face.toInt32).map Value.number :=
  play_faces_bind_pure_eq_ok_iff

/-- The value of a roll that is sampled is the sum of its faces. -/
theorem play_value_dice_eq_ok_iff {v : Value ρ μ} :
    (dice count sides).value.play s r = (.ok v, t, r') ↔ ∃ n m faces,
      IsDealt count sides s r n m faces t r' ∧
        v = .number ((faces.map fun face => Number.int face.toInt32).foldl (· + ·) .zero) :=
  play_faces_bind_pure_eq_ok_iff

end Meaning

end DiceCalculus
