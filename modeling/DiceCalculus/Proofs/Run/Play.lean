import DiceCalculus.Proofs.Run.Exec

set_option autoImplicit false
set_option relaxedAutoImplicit false

/-!
# Carrying out a computation with dice from a roller

With a roller, a computation comes to one result and leaves one session.

## Main results

* `Run.play_bind`, `Run.play_bind_eq_ok_iff` — one computation and then another.
* `Run.play_of_done`, `Run.play_of_bind_done` — steps that ask for no dice themselves.
* `Run.play_inFreshFrame`, `Run.play_within` — computations in a scope of their own.
-/

namespace DiceCalculus

namespace Run

variable {ρ μ : Type} [Scalar ρ] {α β σ : Type} [Roller σ] {act : Run ρ μ α} {s : Session ρ μ} (r : σ)

/-- A computation is carried out by answering its requests. -/
lemma play_eq (act : Run ρ μ α) (s : Session ρ μ) (r : σ) : act.play s r =
    (((act.exec s).play r).1.1, ((act.exec s).play r).1.2, ((act.exec s).play r).2) := rfl

/-- A computation that is finished. -/
theorem play_of_done {x : Except (Stop ρ μ) α} {s' : Session ρ μ} (h : act.exec s = .done (x, s')) :
    act.play s r = (x, s', r) := by
  rw [play_eq, h]
  rfl

/-- A computation that ends with a change of the session. -/
theorem play_of_bind_done {act' : Run ρ μ α} {s' : Session ρ μ} {f : Session ρ μ → Session ρ μ}
    (h : act.exec s = act'.exec s' >>= fun p => .done (p.1, f p.2)) :
    act.play s r = ((act'.play s' r).1, f (act'.play s' r).2.1, (act'.play s' r).2.2) := by
  rw [play_eq, h, Sampler.play_bind]
  rfl

/-- One computation and then another: the second is carried out from where the first ended, unless
it failed. -/
theorem play_bind (act : Run ρ μ α) (f : α → Run ρ μ β) (s : Session ρ μ) :
    (act >>= f).play s r =
      match act.play s r with
      | (.ok a, s', r') => (f a).play s' r'
      | (.error e, s', r') => (.error e, s', r') := by
  rw [play_eq, exec_bind, Sampler.play_bind, play_eq act]
  rcases (act.exec s).play r with ⟨⟨_ | a, s'⟩, r'⟩ <;> rfl

variable {r} in
/-- A computation with a result, and then another. -/
lemma play_bind_ok {a : α} {t : Session ρ μ} {r' : σ} (h : act.play s r = (.ok a, t, r'))
    (f : α → Run ρ μ β) : (act >>= f).play s r = (f a).play t r' := by
  rw [play_bind, h]

variable {r} in
/-- A computation that fails does not go on. -/
lemma play_bind_error {e : Stop ρ μ} {t : Session ρ μ} {r' : σ}
    (h : act.play s r = (.error e, t, r')) (f : α → Run ρ μ β) :
    (act >>= f).play s r = (.error e, t, r') := by
  rw [play_bind, h]

/-- One computation and then another have a result if both do, one after the other. -/
theorem play_bind_eq_ok_iff {f : α → Run ρ μ β} {b : β} {t : Session ρ μ} {r' : σ} :
    (act >>= f).play s r = (.ok b, t, r') ↔
      ∃ a u r₁, act.play s r = (.ok a, u, r₁) ∧ (f a).play u r₁ = (.ok b, t, r') := by
  rw [play_bind]
  rcases act.play s r with ⟨e | a, u, r₁⟩
  · constructor
    · intro h
      cases h
    · rintro ⟨_, _, _, h, -⟩
      cases h
  · constructor
    · exact fun h => ⟨a, u, r₁, rfl, h⟩
    · rintro ⟨_, _, _, h, hf⟩
      cases h
      exact hf

/-- A value that is given. -/
@[simp] lemma play_pure (a : α) : (pure a : Run ρ μ α).play s r = (.ok a, s, r) := rfl

/-- A request is charged, and answered by the roller if the limit allows it. -/
lemma play_roll (count sides : Nat) (s : Session ρ μ) :
    (roll count sides).play s r =
      if Limits.allows s.limits.maxRolls (s.spent + count) then
        (.ok (Roller.roll count sides r).1, { s with spent := s.spent + count },
          (Roller.roll count sides r).2)
      else (.error (.fault .tooManyRolls), { s with spent := s.spent + count }, r) := by
  rw [play_eq, exec_roll]
  split <;> rfl

/-- A computation in a fresh frame. -/
theorem play_inFreshFrame (act : Run ρ μ α) (s : Session ρ μ) :
    (inFreshFrame act).play s r = ((act.play (s.enter s.scope) r).1,
      (act.play (s.enter s.scope) r).2.1.inScope s.scope, (act.play (s.enter s.scope) r).2.2) :=
  play_of_bind_done (f := (·.inScope s.scope)) r (exec_inFreshFrame act s)

/-- A computation in another scope. -/
theorem play_within (scope : Scope) (act : Run ρ μ α) (s : Session ρ μ) :
    (within scope act).play s r = ((act.play (s.inScope scope) r).1,
      (act.play (s.inScope scope) r).2.1.inScope s.scope, (act.play (s.inScope scope) r).2.2) :=
  play_of_bind_done (f := (·.inScope s.scope)) r (exec_within scope act s)

end Run

end DiceCalculus
