import DiceCalculus.Proofs.Run.Play
import DiceCalculus.Proofs.WrittenForm.Sessions

set_option autoImplicit false
set_option relaxedAutoImplicit false

/-!
# Runs with numbers in other forms

From sessions that are the same up to written forms, two computations ask for the same dice, whatever
the faces are, and come to related results or fail for the same cause. The sessions that they leave are
the same up to written forms again.

## Main definitions

* `Sampler.Rel` — samplers with the same requests and related results.
* `Stop.Same`, `Run.Ends` — computations that end in the same way.
* `Run.Rel` — computations that do the same from sessions that are the same.

## Main results

* `Sampler.Rel.play` — a roller gets the same requests from both.
* `Run.Rel.bind`, `Run.Rel.mapM` — computations in turn.
* `Run.rel_inFreshFrame`, `Run.rel_activation` — computations in fresh frames and in calls.
-/

namespace DiceCalculus

/-! ## Samplers -/

namespace Sampler

variable {α β γ δ : Type}

/-- Samplers with the same requests, and with related results whatever the faces are. -/
inductive Rel (R : α → β → Prop) : Sampler α → Sampler β → Prop where
  /-- Both are finished. -/
  | done {a : α} {b : β} (h : R a b) : Rel R (.done a) (.done b)
  /-- Both ask for the same dice. -/
  | roll {count sides : Nat} {next : List UInt32 → Sampler α} {next' : List UInt32 → Sampler β}
    (h : ∀ faces, Rel R (next faces) (next' faces)) :
    Rel R (.roll count sides next) (.roll count sides next')

namespace Rel

variable {R : α → β → Prop} {Q : γ → δ → Prop} {t : Sampler α} {u : Sampler β}

/-- Samplers in turn. -/
lemma bind (h : t.Rel R u) {f : α → Sampler γ} {g : β → Sampler δ}
    (hfg : ∀ a b, R a b → (f a).Rel Q (g b)) : (t >>= f).Rel Q (u >>= g) := by
  induction h with
  | done h => exact hfg _ _ h
  | roll _ ih => exact .roll ih

/-- A roller gets the same requests from both, and leads to related results. -/
theorem play (h : t.Rel R u) {σ : Type} [Roller σ] (r : σ) :
    R (t.play r).1 (u.play r).1 ∧ (t.play r).2 = (u.play r).2 := by
  induction h generalizing r with
  | done h => exact ⟨h, rfl⟩
  | roll _ ih => exact ih _ _

end Rel

end Sampler

/-! ## Computations -/

variable {ρ μ : Type} [Scalar ρ] {α β γ δ : Type}

/-- Computations end for the same cause. -/
inductive Stop.Same : Stop ρ μ → Stop ρ μ → Prop where
  /-- Causes that are the same up to the form of a number. -/
  | fault {f f' : Fault ρ μ} (h : f.Same f') : Same (.fault f) (.fault f')
  /-- The fuel of both was used up. -/
  | outOfFuel : Same .outOfFuel .outOfFuel

namespace Run

/-- Two computations end with related results, or for the same cause, and leave sessions that are the
same. -/
structure Ends (R : α → β → Prop) (p : Except (Stop ρ μ) α × Session ρ μ)
    (p' : Except (Stop ρ μ) β × Session ρ μ) : Prop where
  /-- The results are related, or the causes the same. -/
  result : Except.Rel Stop.Same R p.1 p'.1
  /-- The sessions are the same. -/
  session : p.2.Same p'.2

/-- From sessions that are the same, computations ask for the same dice and end in the same way. -/
def Rel (R : α → β → Prop) (act : Run ρ μ α) (act' : Run ρ μ β) : Prop :=
  ∀ ⦃s s' : Session ρ μ⦄, s.Same s' → (act.exec s).Rel (Ends R) (act'.exec s')

variable {R : α → β → Prop} {Q : γ → δ → Prop} {act : Run ρ μ α} {act' : Run ρ μ β}

/-! ### Steps -/

/-- Values that are given. -/
lemma rel_pure {a : α} {b : β} (h : R a b) : Rel R (pure a : Run ρ μ α) (pure b) :=
  fun _ _ hs => .done ⟨.ok h, hs⟩

/-- Failures for the same cause. -/
lemma rel_fail {f f' : Fault ρ μ} (h : f.Same f') : Rel R (fail f) (fail f') :=
  fun _ _ hs => .done ⟨.error (.fault h), hs⟩

/-- Computations without fuel. -/
lemma rel_outOfFuel : Rel R (throw .outOfFuel : Run ρ μ α) (throw .outOfFuel) :=
  fun _ _ hs => .done ⟨.error .outOfFuel, hs⟩

/-- Calculations that come to related results or fail for the same cause. -/
lemma rel_ofExcept {x : Except (Fault ρ μ) α} {y : Except (Fault ρ μ) β}
    (h : Except.Rel Fault.Same R x y) : Rel R (ofExcept x) (ofExcept y) := by
  intro s s' hs
  rw [exec_ofExcept, exec_ofExcept]
  exact .done ⟨h.mapError fun _ _ => .fault, hs⟩

namespace Rel

/-- Computations in turn. -/
theorem bind (h : Rel R act act') {f : α → Run ρ μ γ} {g : β → Run ρ μ δ}
    (hfg : ∀ a b, R a b → Rel Q (f a) (g b)) : Rel Q (act >>= f) (act' >>= g) := by
  intro s s' hs
  rw [exec_bind, exec_bind]
  refine (h hs).bind fun p p' hp => ?_
  obtain ⟨x, t⟩ := p
  obtain ⟨y, t'⟩ := p'
  obtain ⟨hxy, ht⟩ := hp
  change t.Same t' at ht
  cases hxy with
  | ok hab => exact hfg _ _ hab ht
  | error he => exact .done ⟨.error he, ht⟩

/-- Functions of results. -/
lemma map (h : Rel R act act') {f : α → γ} {g : β → δ} (hfg : ∀ a b, R a b → Q (f a) (g b)) :
    Rel Q (act >>= fun a => pure (f a)) (act' >>= fun b => pure (g b)) :=
  h.bind fun a b hab => rel_pure (hfg a b hab)

/-- Computations for every item of a list. -/
theorem mapM {as : List α} {bs : List β} (h : List.Forall₂ R as bs) {f : α → Run ρ μ γ}
    {g : β → Run ρ μ δ} (hfg : ∀ a b, R a b → Rel Q (f a) (g b)) :
    Rel (List.Forall₂ Q) (as.mapM f) (bs.mapM g) := by
  induction h with
  | nil => exact rel_pure .nil
  | cons hab _ ih =>
    rw [List.mapM_cons, List.mapM_cons]
    exact (hfg _ _ hab).bind fun c d hcd => ih.map fun cs ds hcds => .cons hcd hcds

/-- Computations that read the same from sessions that are the same. -/
lemma ofRead {read : Session ρ μ → γ} (hread : ∀ s s' : Session ρ μ, s.Same s' → read s = read s')
    {f : γ → Run ρ μ α} {g : γ → Run ρ μ β} (h : ∀ c, Rel R (f c) (g c)) :
    Rel R (Run.read read >>= f) (Run.read read >>= g) := by
  intro s s' hs
  rw [exec_bind, exec_bind, exec_read, exec_read, hread s s' hs]
  exact h (read s') hs

end Rel

/-! ### Sessions -/

/-- The binding of a name. -/
lemma rel_lookup (name : String) :
    Rel Binding.Same (lookup (ρ := ρ) (μ := μ) name) (lookup name) := by
  intro s s' hs
  have h := hs.lookup? name
  rw [exec_lookup, exec_lookup]
  generalize s.frames.lookup? s.scope name = b, s'.frames.lookup? s'.scope name = b' at h
  cases h with
  | none => exact .done ⟨.error (.fault (.refl _)), hs⟩
  | some h => exact .done ⟨.ok h, hs⟩

/-- The function that is registered under a shape. -/
lemma rel_function (shape : Shape) :
    Rel Function.Same (function (ρ := ρ) (μ := μ) shape) (function shape) := by
  intro s s' hs
  have h := hs.functions shape
  rw [exec_function, exec_function]
  generalize s.registry.find? shape = f, s'.registry.find? shape = f' at h
  cases h with
  | none => exact .done ⟨.error (.fault (.refl _)), hs⟩
  | some h => exact .done ⟨.ok h, hs⟩

/-- Requests for dice. -/
lemma rel_roll (count sides : Nat) :
    Rel Eq (roll (ρ := ρ) (μ := μ) count sides) (roll count sides) := by
  intro s s' hs
  have hallows : Limits.allows s.limits.maxRolls (s.spent + count) =
      Limits.allows s'.limits.maxRolls (s'.spent + count) := by rw [hs.limits, hs.spent]
  rw [exec_roll, exec_roll, hallows]
  split
  · exact .roll fun faces => .done ⟨.ok rfl, hs.spend count⟩
  · exact .done ⟨.error (.fault (.refl _)), hs.spend count⟩

/-- A name that is bound. -/
lemma rel_assign (name : String) {b b' : Binding ρ μ} (hb : b.Same b') :
    Rel Eq (assign name b) (assign name b') :=
  fun _ _ hs => .done ⟨.ok rfl, hs.assign name hb⟩

/-- A function that is declared. -/
lemma rel_declare (signature : Signature) {body body' : List (Expr ρ)}
    (hbody : List.Forall₂ (fun e e' => e.isSame e' = true) body body') :
    Rel Eq (declare (μ := μ) signature body) (declare signature body') := by
  intro s s' hs
  rw [exec_declare, exec_declare]
  cases signature.repeatedParameter? with
  | some name => exact .done ⟨.error (.fault (.refl _)), hs⟩
  | none => exact .done ⟨.ok rfl, hs.declare signature hbody⟩

/-- Computations in another scope. -/
lemma rel_within (h : Rel R act act') (scope : Scope) :
    Rel R (within scope act) (within scope act') := by
  intro s s' hs
  rw [exec_within, exec_within, hs.scope]
  exact (h (hs.inScope scope)).bind fun p p' hp =>
    .done ⟨hp.result, hp.session.inScope s'.scope⟩

/-- Computations in fresh frames. -/
theorem rel_inFreshFrame (h : Rel R act act') : Rel R (inFreshFrame act) (inFreshFrame act') := by
  intro s s' hs
  rw [exec_inFreshFrame, exec_inFreshFrame, hs.scope]
  exact (h (hs.enter s'.scope)).bind fun p p' hp =>
    .done ⟨hp.result, hp.session.inScope s'.scope⟩

/-- Activations of a function. -/
theorem rel_activation (h : Rel R act act') (scope : Scope) {bs bs' : List (String × Binding ρ μ)}
    (hbs : List.Forall₂ (fun b b' => b.1 = b'.1 ∧ Binding.Same b.2 b'.2) bs bs') :
    Rel R
      (do
        let inner ← extend scope
        within inner (bs.forM fun b => assign b.1 b.2)
        activate inner act)
      (do
        let inner ← extend scope
        within inner (bs'.forM fun b => assign b.1 b.2)
        activate inner act') := by
  intro s s' hs
  have hinner := (hs.enter scope).assignAll hbs
  rw [exec_activation, exec_activation, hs.limits, hs.depth, hs.scope, (hs.enter scope).scope]
  split
  · exact .done ⟨.error (.fault (.refl _)), hinner.inScope s'.scope⟩
  · exact (h (hinner.down (s'.enter scope).scope)).bind fun p p' hp =>
      .done ⟨hp.result, hp.session.up s'.scope⟩

end Run

end DiceCalculus
