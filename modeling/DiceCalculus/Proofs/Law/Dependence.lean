import DiceCalculus.Proofs.Law.Position

set_option autoImplicit false
set_option relaxedAutoImplicit false

/-!
# Dice that share their operands

The dice of one roll share a number of dice and a number of sides. If these are random, the dice
depend on each other, although each of them has a law of its own. The chance that a bound holds of
all dice is then in general greater than the product of the chances of the single dice.

## Main definitions

* `Dice.chanceApart` — the chance that a bound holds up to a position, if the dice were independent.
* `Dice.chanceTogether` — the same chance for dice that share the number of dice.

## Main results

* `Law.pow_integral_le` — the power of an integral is at most the integral of the power.
* `Law.eq_of_pow_integral_eq` — they are equal only for a constant.
* `Dice.chanceApart_le_chanceTogether` — sharing the number of dice makes the chance greater.
* `Dice.reached_eq_one_of_eq` — the chances are equal only if every position before the last is
  reached for certain.
-/

namespace DiceCalculus

variable {ρ : Type} [Scalar ρ]

open Outcome

/-! ## Sharing the number of sides -/

namespace Law

variable {l : Law ρ ℚ} {q : Outcome ρ → ℚ} {n : Nat}

/-- A power lies above its tangent by at least a square. -/
lemma tangent_le_pow {a q : ℚ} (ha : 0 ≤ a) (hq : 0 ≤ q) (n : Nat) :
    a ^ (n + 2) + (n + 2) * a ^ (n + 1) * (q - a) + a ^ n * (q - a) ^ 2 ≤ q ^ (n + 2) := by
  induction n with
  | zero =>
    apply le_of_eq
    norm_num
    ring
  | succ n ih =>
    have hstep := mul_le_mul_of_nonneg_left ih hq
    have hrest : 0 ≤ (n + 1) * a ^ (n + 1) * (q - a) ^ 2 + a ^ n * q * (q - a) ^ 2 := by
      positivity
    calc a ^ (n + 1 + 2) + ((n + 1 : Nat) + 2) * a ^ (n + 1 + 1) * (q - a) +
          a ^ (n + 1) * (q - a) ^ 2
        ≤ a ^ (n + 1 + 2) + ((n + 1 : Nat) + 2) * a ^ (n + 1 + 1) * (q - a) +
          a ^ (n + 1) * (q - a) ^ 2 +
            ((n + 1) * a ^ (n + 1) * (q - a) ^ 2 + a ^ n * q * (q - a) ^ 2) :=
          le_add_of_nonneg_right hrest
      _ = q * (a ^ (n + 2) + (n + 2) * a ^ (n + 1) * (q - a) + a ^ n * (q - a) ^ 2) := by
          push_cast
          ring
      _ ≤ q * q ^ (n + 2) := hstep
      _ = q ^ (n + 1 + 2) := by ring

/-- The integral of a power exceeds the power of the integral by at least a spread. -/
lemma pow_integral_add_le (hl : l.IsNormalized) (hq : ∀ o, 0 ≤ q o) (n : Nat) :
    l.integral q ^ (n + 2) +
        l.integral q ^ n * l.integral (fun o => (q o - l.integral q) ^ 2) ≤
      l.integral fun o => q o ^ (n + 2) := by
  have ha : 0 ≤ l.integral q := integral_nonneg hl.nonneg fun e _ => hq e.1
  generalize hmean : l.integral q = a at ha ⊢
  have htangent := integral_mono (l := l) hl.nonneg
    (g := fun o => a ^ (n + 2) + (n + 2) * a ^ (n + 1) * (q o - a) + a ^ n * (q o - a) ^ 2)
    (h := fun o => q o ^ (n + 2)) fun e _ => tangent_le_pow ha (hq e.1) n
  rw [integral_add, integral_add, hl.integral_const, integral_const_mul, integral_const_mul,
    integral_sub, hl.integral_const, hmean, sub_self, mul_zero, add_zero] at htangent
  exact htangent

/-- The power of an integral is at most the integral of the power. -/
theorem pow_integral_le (hl : l.IsNormalized) (hq : ∀ o, 0 ≤ q o) (n : Nat) :
    l.integral q ^ n ≤ l.integral fun o => q o ^ n := by
  have ha : 0 ≤ l.integral q := integral_nonneg hl.nonneg fun e _ => hq e.1
  match n with
  | 0 => simp [hl.total]
  | 1 => simp
  | n + 2 =>
    have hspread : 0 ≤ l.integral fun o => (q o - l.integral q) ^ 2 :=
      integral_nonneg hl.nonneg fun e _ => sq_nonneg _
    exact (le_add_of_nonneg_right (by positivity)).trans (pow_integral_add_le hl hq n)

/-- The power of an integral is the integral of the power only for a constant. -/
theorem eq_of_pow_integral_eq (hl : l.IsNormalized) (hpos : l.Each fun _ p => 0 < p)
    (hq : ∀ o, 0 ≤ q o) (ha : 0 < l.integral q) (hn : 2 ≤ n)
    (heq : l.integral q ^ n = l.integral fun o => q o ^ n) :
    ∀ e ∈ l.entries, q e.1 = l.integral q := by
  obtain ⟨n, rfl⟩ := Nat.exists_eq_add_of_le' hn
  have hspread : 0 ≤ l.integral fun o => (q o - l.integral q) ^ 2 :=
    integral_nonneg hl.nonneg fun e _ => sq_nonneg _
  have hle := pow_integral_add_le hl hq n
  rw [← heq, add_le_iff_nonpos_right] at hle
  have hzero : l.integral (fun o => (q o - l.integral q) ^ 2) = 0 :=
    le_antisymm (nonpos_of_mul_nonpos_right hle (pow_pos ha n)) hspread
  rw [integral_eq_zero_iff (g := fun o => (q o - l.integral q) ^ 2) hpos
    fun e _ => sq_nonneg _] at hzero
  exact fun e he => sub_eq_zero.1 (sq_eq_zero_iff.1 (hzero e he))

end Law

/-! ## Sharing the number of dice -/

namespace Dice

variable {l : Law ρ ℚ} {a : ℚ}

/-- The chance that a bound holds of all dice up to a position, if each die is absent or rolled
independently of the others. The bound holds of a rolled die with a chance, and of an absent one
anyway. -/
def chanceApart (l : Law ρ ℚ) (a : ℚ) (position : Nat) : ℚ :=
  ((List.range position).map fun i => 1 - (1 - a) * reached l (i + 1)).prod

/-- The chance that a bound holds of all dice up to a position, if the dice share the number of dice.
The bound holds of a rolled die with a chance, and of an absent one anyway. -/
def chanceTogether (l : Law ρ ℚ) (a : ℚ) (position : Nat) : ℚ :=
  l.integral fun o => a ^ min (countAt o) position

/-- The chance for independent dice goes on with one factor for every position. -/
lemma chanceApart_succ (l : Law ρ ℚ) (a : ℚ) (position : Nat) : chanceApart l a (position + 1) =
    chanceApart l a position * (1 - (1 - a) * reached l (position + 1)) := by
  unfold chanceApart
  rw [List.range_succ, List.map_append, List.prod_append, List.map_singleton, List.prod_singleton]

/-- The chance for dice of one roll loses at every position what the bound excludes there. -/
lemma chanceTogether_succ (l : Law ρ ℚ) (a : ℚ) (position : Nat) :
    chanceTogether l a (position + 1) =
      chanceTogether l a position - (1 - a) * reached l (position + 1) * a ^ position := by
  have hstep (n : Nat) : a ^ min n (position + 1) =
      a ^ min n position - (1 - a) * a ^ position * if position + 1 ≤ n then 1 else 0 := by
    by_cases hle : position + 1 ≤ n
    · rw [if_pos hle, min_eq_right hle, min_eq_right (by omega)]
      ring
    · rw [if_neg hle, min_eq_left (by omega), min_eq_left (by omega)]
      ring
  unfold chanceTogether reached
  rw [mul_right_comm, ← Law.integral_const_mul, ← Law.integral_sub]
  exact Law.integral_congr fun e _ => hstep (countAt e.1)

section Compare

variable (hl : l.IsNormalized) (ha : 0 ≤ a) (ha' : a ≤ 1)

include hl ha ha'

/-- Each factor is at least the chance of a rolled die. -/
lemma pow_le_chanceApart (position : Nat) : a ^ position ≤ chanceApart l a position := by
  induction position with
  | zero => simp [chanceApart]
  | succ position ih =>
    have hfactor : a ≤ 1 - (1 - a) * reached l (position + 1) := by
      have hle := mul_le_of_le_one_right (sub_nonneg.2 ha') (reached_bounds hl (position + 1)).2
      linarith
    rw [chanceApart_succ, pow_succ]
    exact mul_le_mul ih hfactor ha ((pow_nonneg ha position).trans ih)

/-- At every position dice of one roll gain on independent dice. -/
lemma gain_le (position : Nat) :
    chanceTogether l a position - chanceApart l a position +
        (1 - a) * reached l (position + 1) * (chanceApart l a position - a ^ position) =
      chanceTogether l a (position + 1) - chanceApart l a (position + 1) ∧
    0 ≤ (1 - a) * reached l (position + 1) * (chanceApart l a position - a ^ position) := by
  constructor
  · rw [chanceTogether_succ, chanceApart_succ]
    ring
  · have hreached := (reached_bounds hl (position + 1)).1
    have hpow := pow_le_chanceApart hl ha ha' position
    exact mul_nonneg (mul_nonneg (sub_nonneg.2 ha') hreached) (sub_nonneg.2 hpow)

/-- A bound holds of all dice of one roll with at least the chance for independent dice. -/
theorem chanceApart_le_chanceTogether (position : Nat) :
    chanceApart l a position ≤ chanceTogether l a position := by
  induction position with
  | zero =>
    unfold chanceApart chanceTogether
    simp [hl.total]
  | succ position ih =>
    obtain ⟨hgain, hnonneg⟩ := gain_le hl ha ha' position
    linarith

/-- If the chances are the same at a position, nothing is gained before it. -/
lemma chanceApart_eq_chanceTogether_of_le {position last : Nat} (hle : position ≤ last)
    (heq : chanceApart l a last = chanceTogether l a last) :
    chanceApart l a position = chanceTogether l a position := by
  induction last, hle using Nat.le_induction with
  | base => exact heq
  | succ last _ ih =>
    obtain ⟨hgain, hnonneg⟩ := gain_le hl ha ha' last
    have hle := chanceApart_le_chanceTogether hl ha ha' last
    exact ih (by linarith)

/-- If the chances are the same at a position, then at every position before it that may be reached
independent dice have the chance of dice that are rolled for certain. -/
lemma chanceApart_eq_pow {position last : Nat} (hlt : position < last) (hone : a < 1)
    (hreached : 0 < reached l (position + 1))
    (heq : chanceApart l a last = chanceTogether l a last) :
    chanceApart l a position = a ^ position := by
  have heq₀ := chanceApart_eq_chanceTogether_of_le hl ha ha' hlt.le heq
  have heq₁ := chanceApart_eq_chanceTogether_of_le hl ha ha' hlt heq
  obtain ⟨hgain, -⟩ := gain_le hl ha ha' position
  rw [heq₀, heq₁, sub_self, sub_self, zero_add, ← heq₀] at hgain
  have hfactor : (1 - a) * reached l (position + 1) ≠ 0 :=
    (mul_pos (sub_pos.2 hone) hreached).ne'
  exact sub_eq_zero.1 ((mul_eq_zero.1 hgain).resolve_left hfactor)

/-- If the chances are the same at a position, then every position before the last is reached for
certain, unless the bound excludes all dice before it. -/
theorem reached_eq_one_of_eq {position last : Nat} (hlt : position + 1 < last) (hone : a < 1)
    (hpow : a ^ position ≠ 0) (hreached : ∀ i < last, 0 < reached l (i + 1))
    (heq : chanceApart l a last = chanceTogether l a last) : reached l (position + 1) = 1 := by
  have hat := chanceApart_eq_pow hl ha ha' hlt hone (hreached _ hlt) heq
  rw [chanceApart_succ, chanceApart_eq_pow hl ha ha' (by omega) hone (hreached _ (by omega)) heq,
    pow_succ] at hat
  have hfactor := mul_left_cancel₀ hpow hat
  exact (mul_eq_left₀ (sub_pos.2 hone).ne').1 (by linarith)

end Compare

end Dice

end DiceCalculus
