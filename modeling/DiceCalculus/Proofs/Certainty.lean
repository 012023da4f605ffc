import DiceCalculus.Proofs.Certainty.Forms
import DiceCalculus.Proofs.Run.Play
import DiceCalculus.Roller

set_option autoImplicit false
set_option relaxedAutoImplicit false

/-!
# Without dice, a law is certain of a sample

A program in which no dice are rolled has nothing to be uncertain of. If it has a law, it can be
sampled, it is sampled to a number, and the law has that number as its only outcome, written in the
same form and with mass one to the last bit. The program may be any: with variables that are read
many times, functions that are declared on the way or that call themselves, sequences, maxima,
conditions, blocks and outputs.

## Main definitions

* `Session.Reaches` — a frame that a program can read from.
* `Session.Allows` — a shape whose function does not take a law as a value.
* `Session.IsRollFree` — a session whose variables hold values without laws, and whose functions roll
  no dice.

## Main results

* `Session.IsRollFree.mirrors` — such a session mirrors itself.
* `Session.evaluate_of_distribution` — what a program without dice is sampled to, if it has a law.
* `modes_coincide` — the same of a running program, which computes in doubles.

## Design

A run leaves frames behind that no scope leads to any more, and it does not matter what they hold.
-/

namespace DiceCalculus

variable {ρ μ : Type} [Scalar ρ]

namespace Session

/-- A program can read from the frames of the scope and from those of the declared functions. -/
def Reaches (s : Session ρ μ) (i : Nat) : Prop :=
  i ∈ s.scope.chain ∨ ∃ shape c, s.registry.find? shape = some (.user c) ∧ i ∈ c.scope.chain

/-- The function of a shape, if there is one, does not take a law as a value. -/
def Allows (s : Session ρ μ) (shape : Shape) : Prop :=
  s.registry.find? shape ≠ some (.builtin .law)

/-- All variables hold values in which there is no law, and no declared function rolls dice or takes a
law as a value. -/
structure IsRollFree (s : Session ρ μ) : Prop where
  /-- All variables that can be read hold values in which there is no law. -/
  frames : ∀ i, s.Reaches i → ∀ name b, s.frames.find? i name = some b →
    ∃ v, b = .value v ∧ v.IsLawFree
  /-- The bodies of the declared functions roll no dice and take no law as a value. -/
  bodies : ∀ shape c, s.registry.find? shape = some (.user c) →
    ∀ e ∈ c.body, e.Every (Expr.IsRollFree s.Allows)

variable [Mass μ]

/-- A session without dice and laws mirrors itself, and goes on to do so when it is renewed. -/
theorem IsRollFree.mirrors {s : Session ρ μ} (hs : s.IsRollFree) :
    s.renewed.Mirrors (fun i => s.Reaches i ∨ s.frames.size ≤ i) s.Allows s.renewed where
  limits := rfl
  registry := rfl
  scope_eq := rfl
  depth := rfl
  size := rfl
  frames := by
    intro i hi name
    show Option.Rel _ (s.frames.find? i name) (s.frames.find? i name)
    cases hb : s.frames.find? i name with
    | none => exact .none
    | some b =>
      rcases hi with hi | hi
      · obtain ⟨v, rfl, hv⟩ := hs.frames i hi name b hb
        exact .some (.value hv)
      · rw [Frames.find?_of_size_le hi] at hb
        cases hb
  fresh _ hi := .inr hi
  scope _ hi := .inl (.inl hi)
  closures shape c hc _ hi := .inl (.inr ⟨shape, c, hc, hi⟩)
  bodies := hs.bodies
  laws _ hshape := hshape

/-- An expression without dice that has a law is sampled to a number, and the law is certain of it.

**Proof sketch.** The session mirrors itself. From sessions that mirror each other every form of
expressions goes on to sessions that do (`Expr.mirrors_meaning`): a variable that one side binds to
a law is bound to the number that the law is certain of on the other, and a test that is certain
leaves both sides with one branch, the same. -/
theorem evaluate_of_distribution (hμ : Mass.IsUnital μ) {s : Session ρ μ} (hs : s.IsRollFree)
    {e : Expr ρ} (he : e.Every (Expr.IsRollFree s.Allows)) {σ τ : Type} [Roller σ] [Roller τ] (r : σ)
    (r' : τ) {d : Law ρ μ} (hd : ((distribution e).play s r).1 = .ok d) :
    ∃ x, ((evaluate e).play s r').1 = .ok (.number x) ∧ d.IsCertain x := by
  have hdistribution : (distribution e).Leads .any s _ _ :=
    Run.leads_play (fun _ _ _ => trivial) (distribution e) s r
  rw [hd] at hdistribution
  obtain ⟨r₀, hlaw, hchecked⟩ := leads_distribution.1 hdistribution
  cases r₀ with
  | error _ => cases hchecked
  | ok l =>
    obtain rfl := eq_of_checked hchecked.symm
    obtain ⟨v, t, hv, hlv, -⟩ :=
      (Expr.mirrors_meaning hμ s.renewed.fuel he).value hs.mirrors (Run.leads_ask.1 hlaw)
    obtain ⟨x, rfl, hx⟩ := hlv
    have hexec : (evaluate e).exec s = .done (.ok (.number x), t) :=
      (Run.exec_ask e (·.value) s.renewed).trans hv
    exact ⟨x, congrArg (·.1) (Run.play_of_done r' hexec), hx⟩

end Session

/-- On programs without dice, the two modes of a running program coincide. From a session whose
variables hold values without laws, an expression that rolls no dice, calls functions that roll none
and takes no law as a value is sampled to a number if it has a law, whatever the roller; and the law
has one outcome, that number in its written form, with mass one. -/
theorem modes_coincide {s : Session Float Float} (hs : s.IsRollFree) {e : Expr Float}
    (he : e.Every (Expr.IsRollFree s.Allows)) {σ τ : Type} [Roller σ] [Roller τ] (r : σ) (r' : τ)
    {d : Law Float Float} (hd : ((Session.distribution e).play s r).1 = .ok d) :
    ∃ x, ((Session.evaluate e).play s r').1 = .ok (.number x) ∧
      d.entries = [(.single (.number x), 1.0)] :=
  Session.evaluate_of_distribution Mass.isUnital_double hs he r r' hd

/-- A function that counts down by calling itself is declared, and its result is compared with a
variable and with the same number written as a real. The maximum is the last of equal numbers.

**Proof sketch.** A session that was just started has no law bound and no function declared, and the
block is free of rolls. That a law is found at all is computed; what it is follows from the theorem.
-/
theorem modes_coincide_countdown :
    let test : Expr Float := .binary .le (.var "n") (.literal (.int 0))
    let next : Expr Float := .ofCall "countdown" (.ofList [.binary .sub (.var "n") (.literal (.int 1))])
    let choice : Expr Float :=
      .call Builtin.branch.shape ⟨[test], [("else", [next]), ("then", [.literal (.int 0)])]⟩
    let countdown : Expr Float := .declare ⟨"countdown", .ofList ["n"]⟩ [.output choice]
    let items : Expr Float :=
      .sequence [.var "k", .ofCall "countdown" (.ofList [.var "k"]), .literal (.real 2.0)]
    let e : Expr Float := .block
      [.assign "k" (.literal (.int 2)), countdown, .output (.ofCall "max" (.ofList [items]))]
    let s : Session Float Float := .start .standard
    let r : Stepper := ⟨1, 0⟩
    s.IsRollFree ∧ e.Every (Expr.IsRollFree s.Allows) ∧
      ∃ d x, ((Session.distribution e).play s r).1 = .ok d ∧
        ((Session.evaluate e).play s r).1 = .ok (.number x) ∧
          d.entries = [(.single (.number x), 1.0)] := by
  intro test next choice countdown items e s r
  have hs : s.IsRollFree := by
    constructor
    · exact fun i _ name b hb => absurd hb (Frames.find?_initial_ne i name b)
    · exact fun shape c hc => absurd hc (Registry.find?_standard_ne_user shape c)
  have he : e.Every (Expr.IsRollFree s.Allows) := by
    have hbranch : s.Allows Builtin.branch.shape := nofun
    have hcountdown (arg : Expr Float) : s.Allows ((Slots.ofList [arg]).shape "countdown") := nofun
    have hmax (arg : Expr Float) : s.Allows ((Slots.ofList [arg]).shape "max") := nofun
    simp [e, countdown, items, choice, test, next, Expr.ofCall, Expr.IsRollFree, hbranch, hcountdown,
      hmax]
  have hlaw : ((Session.distribution e).play s r).1.toOption.isSome = true := by decide +kernel
  obtain ⟨d, hd⟩ := Except.exists_eq_ok_of_isSome hlaw
  obtain ⟨x, hx, hentries⟩ := modes_coincide hs he r r hd
  exact ⟨hs, he, d, x, hd, hx, hentries⟩

end DiceCalculus
