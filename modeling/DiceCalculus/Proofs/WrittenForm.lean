import DiceCalculus.Proofs.Binary64.Congruence
import DiceCalculus.Proofs.Interactions
import DiceCalculus.Proofs.WrittenForm.Calls
import DiceCalculus.Roller

set_option autoImplicit false
set_option relaxedAutoImplicit false

/-!
# Results do not depend on the written form of a number

A number may be written in more than one way: two as an integer and as a real, zero as an integer and
as either zero of the doubles. Sessions and expressions that differ in this only cannot be told apart by
what is asked of them: the same dice are rolled, the same failures occur, and the results compare equal,
with masses that are identical.

## Main definitions

* `Question.SameAnswers` — answers to a question that are the same up to written forms.
* `Run.Played` — two computations that were carried out have come to the same.
* `Interaction.Same` — what is done with a session, up to written forms.

## Main results

* `Expr.rel_ask`, `Session.rel_evaluate`, `Session.rel_distribution`, `Session.rel_run` — expressions
  that are equal, in each way in which they can be asked.
* `Session.Same.after`, `Session.Same.afterAll` — an interaction, and interactions in turn.
* `results_do_not_depend_on_form` — the whole of it for doubles, whose arithmetic respects equality.
-/

namespace DiceCalculus

variable {ρ μ : Type} [Scalar ρ] {σ α β : Type}

/-! ## Answers -/

/-- Answers to a question that are the same up to the forms of numbers. -/
def Question.SameAnswers : (q : Question) → q.Answer ρ μ → q.Answer ρ μ → Prop
  | value => Value.Same
  | items => List.Forall₂ Value.Same
  | law => Law.Same
  | laws => List.Forall₂ Law.Same
  | stored _ => Binding.Same
  | step m => Flow.Rel m.SameAnswers

/-- Meanings that answer in the same way do so whatever the question. -/
lemma Meaning.Same.of {x x' : Meaning ρ μ} (h : x.Same x') (q : Question) :
    Run.Rel q.SameAnswers (q.of x) (q.of x') := by
  cases q with
  | value => exact h.value
  | items => exact h.items
  | law => exact h.law
  | laws => exact h.laws
  | stored m => exact h.stored m
  | step m => exact h.step m

section Asking

variable [Mass μ] (hρ : Scalar.IsCongruent ρ) {e e' : Expr ρ} (he : e.isSame e' = true)

include hρ he

/-- An expression is asked directly. The sessions have the same fuel. -/
theorem Expr.rel_ask (q : Question) : Run.Rel (μ := μ) q.SameAnswers (e.ask q.of) (e'.ask q.of) := by
  refine .ofRead (fun s s' hs => ?_) fun fuel => (Expr.same_meaning hρ fuel he).of q
  unfold Session.fuel
  rw [hs.limits, hs.depth]

namespace Session

omit hρ he [Mass μ] in
/-- Evaluations that are started. -/
lemma rel_begin : Run.Rel Eq (begin : Run ρ μ Unit) begin :=
  fun _ _ hs => .done ⟨.ok rfl, hs.renewed⟩

/-- An expression is sampled. -/
theorem rel_evaluate : Run.Rel (μ := μ) Value.Same (evaluate e) (evaluate e') :=
  rel_begin.bind fun _ _ _ => Expr.rel_ask hρ he .value

/-- The law of an expression is computed. Both laws have the same total mass, so that both or none pass
the check. -/
theorem rel_distribution : Run.Rel (μ := μ) Law.Same (distribution e) (distribution e') := by
  refine rel_begin.bind fun _ _ _ => (Expr.rel_ask hρ he .law).bind fun l l' hl => ?_
  change l.Same l' at hl
  refine .ofRead (fun s s' hs => congrArg (·.tolerance) hs.limits) fun tolerance => ?_
  have hnormalized : l.isNormalized tolerance = l'.isNormalized tolerance := by
    unfold Law.isNormalized
    rw [hl.total_eq]
  rw [hnormalized, hl.total_eq]
  split
  · exact Run.rel_pure hl
  · exact Run.rel_fail (.refl _)

/-- A statement is run. -/
theorem rel_run : Run.Rel (μ := μ) (Option.Rel Value.Same) (run e) (run e') := by
  refine rel_begin.bind fun _ _ _ => ?_
  refine (Run.rel_within (Expr.rel_ask hρ he (.step .sample)) .global).bind fun f f' hf => ?_
  cases hf with
  | next h => exact Run.rel_pure h
  | ended h => exact Run.rel_pure (.some h)

end Session

end Asking

/-! ## With dice from a roller -/

/-- Two computations that were carried out have come to the same: to related results, or to a failure
for the same cause, in sessions that are the same, and with the roller in one state. -/
structure Run.Played (R : α → β → Prop) (p : Except (Stop ρ μ) α × Session ρ μ × σ)
    (p' : Except (Stop ρ μ) β × Session ρ μ × σ) : Prop where
  /-- The results are related, or the causes the same. -/
  result : Except.Rel Stop.Same R p.1 p'.1
  /-- The sessions are the same. -/
  session : p.2.1.Same p'.2.1
  /-- The roller is in one state. -/
  roller : p.2.2 = p'.2.2

/-- Computations that do the same are carried out in the same way by any roller. -/
lemma Run.Rel.play [Roller σ] {R : α → β → Prop} {act : Run ρ μ α} {act' : Run ρ μ β}
    (h : Rel R act act') {s s' : Session ρ μ} (hs : s.Same s') (r : σ) :
    Played R (act.play s r) (act'.play s' r) := by
  obtain ⟨hends, hroller⟩ := (h hs).play r
  exact ⟨hends.result, hends.session, hroller⟩

/-- What is done with two sessions, in the same way. -/
inductive Interaction.Same : Interaction ρ μ → Interaction ρ μ → Prop where
  /-- Equal expressions are sampled. -/
  | evaluate {e e' : Expr ρ} (he : e.isSame e' = true) :
    Same (.operation (.request (.evaluate e))) (.operation (.request (.evaluate e')))
  /-- The laws of equal expressions are computed. -/
  | distribution {e e' : Expr ρ} (he : e.isSame e' = true) :
    Same (.operation (.request (.distribution e))) (.operation (.request (.distribution e')))
  /-- Equal statements are run. -/
  | run {e e' : Expr ρ} (he : e.isSame e' = true) :
    Same (.operation (.request (.run e))) (.operation (.request (.run e')))
  /-- A global variable is bound. -/
  | bindGlobal (name : String) {b b' : Binding ρ μ} (hb : b.Same b') :
    Same (.operation (.bindGlobal name b)) (.operation (.bindGlobal name b'))
  /-- Equal expressions are asked directly. -/
  | ask (q : Question) {e e' : Expr ρ} (he : e.isSame e' = true) : Same (.ask q e) (.ask q e')

namespace Session.Same

variable [Mass μ] [Roller σ] (hρ : Scalar.IsCongruent ρ) {s s' : Session ρ μ} (hs : s.Same s')

include hρ hs

/-- An interaction keeps sessions the same, and the roller gets the same requests. -/
theorem after {i i' : Interaction ρ μ} (hi : i.Same i') (r : σ) :
    (i.after s r).1.Same (i'.after s' r).1 ∧ (i.after s r).2 = (i'.after s' r).2 := by
  have hplayed {α β : Type} {R : α → β → Prop} {act : Run ρ μ α} {act' : Run ρ μ β}
      (h : Run.Rel R act act') : (act.play s r).2.1.Same (act'.play s' r).2.1 ∧
        (act.play s r).2.2 = (act'.play s' r).2.2 := ⟨(h.play hs r).session, (h.play hs r).roller⟩
  cases hi with
  | evaluate he => exact hplayed (rel_evaluate hρ he)
  | distribution he => exact hplayed (rel_distribution hρ he)
  | run he => exact hplayed (rel_run hρ he)
  | bindGlobal name hb => exact ⟨hs.bindGlobal name hb, rfl⟩
  | ask q he => exact hplayed (Expr.rel_ask hρ he q)

/-- Interactions in turn keep sessions the same, and the roller gets the same requests. -/
theorem afterAll {is is' : List (Interaction ρ μ)} (his : List.Forall₂ Interaction.Same is is')
    (r : σ) : (s.afterAll is r).1.Same (s'.afterAll is' r).1 ∧
      (s.afterAll is r).2 = (s'.afterAll is' r).2 := by
  induction his generalizing s s' r with
  | nil => exact ⟨hs, rfl⟩
  | @cons i i' is is' hi _ ih =>
    obtain ⟨hafter, hroller⟩ := hs.after hρ hi r
    show (Session.afterAll is (i.after s r).1 (i.after s r).2).1.Same
        (Session.afterAll is' (i'.after s' r).1 (i'.after s' r).2).1 ∧
      (Session.afterAll is (i.after s r).1 (i.after s r).2).2 =
        (Session.afterAll is' (i'.after s' r).1 (i'.after s' r).2).2
    rw [← hroller]
    exact ih hafter (i.after s r).2

end Session.Same

/-! ## Doubles -/

/-- For doubles, results do not depend on the written form of a number. Let two sessions bind the same
up to written forms, with function bodies that differ in the form of literals only, and let two
expressions differ in that only as well. Whatever is asked, a roller gets the same requests from both;
both fail for the same cause, or both have results, and these compare equal, with the same masses to
the last bit where they are laws. The sessions that are left are the same again. In particular, each
operator has results that compare equal at operands that do, or fails at both for the same cause. -/
theorem results_do_not_depend_on_form [Mass μ] [Roller σ] {s s' : Session Float μ} (hs : s.Same s')
    {e e' : Expr Float} (he : (e == e') = true) (r : Recorded σ) :
    (∀ q : Question,
      Run.Played q.SameAnswers ((e.ask q.of).play s r) ((e'.ask q.of).play s' r)) ∧
    Run.Played Value.Same ((Session.evaluate e).play s r) ((Session.evaluate e').play s' r) ∧
    Run.Played Law.Same ((Session.distribution e).play s r) ((Session.distribution e').play s' r) ∧
    Run.Played (Option.Rel Value.Same) ((Session.run e).play s r) ((Session.run e').play s' r) ∧
    ∀ (op : Operator) (x x' y y' : Number Float), compare x x' = .eq → compare y y' = .eq →
      Except.Rel Eq (fun z z' => compare z z' = .eq) (op.apply (μ := μ) x y) (op.apply x' y') := by
  have hρ := Scalar.isCongruent_double
  change e.isSame e' = true at he
  exact ⟨fun q => (Expr.rel_ask hρ he q).play hs r, (Session.rel_evaluate hρ he).play hs r,
    (Session.rel_distribution hρ he).play hs r, (Session.rel_run hρ he).play hs r,
    fun op x x' y y' hx hy => Operator.rel_apply (hρ op) hx hy⟩

/-- A function is declared and a variable is bound, and dice are rolled, each with the numbers in one
form and in another. The products that come out are written in different forms.

**Proof sketch.** The two sessions are the same up to the form of numbers, since they were set up in
the same way. So the theorem relates the results; which numbers these are, and in which form, is
computed. -/
theorem results_do_not_depend_on_form_product :
    let f : Signature := ⟨"f", .ofList []⟩
    let setUp (zero two : Number Float) : List (Interaction Float Float) :=
      [.operation (.bindGlobal "x" (.value (.number zero))),
        .operation (.request (.run (.declare f [.output (.literal two)])))]
    let product (two six : Number Float) : Expr Float :=
      .binary .mul (.binary .add (.dice (.literal two) (.literal six)) (.var "x"))
        (.ofCall "f" (.ofList []))
    let r : Recorded Stepper := .ofState ⟨1, 1⟩
    let s := ((Session.start .standard).afterAll (setUp (.int 0) (.int 2)) r).1
    let s' := ((Session.start .standard).afterAll (setUp (.real (-0.0)) (.real 2)) r).1
    let p := (Session.evaluate (product (.int 2) (.real 6))).play s r
    let p' := (Session.evaluate (product (.real 2) (.int 6))).play s' r
    ∃ x x' : Number Float, p.1 = .ok (.number x) ∧ p'.1 = .ok (.number x') ∧ x = .int 6 ∧
      x' = .real 6 ∧ compare x x' = .eq ∧ p.2.2.requests = [(2, 6)] ∧ p'.2.2.requests = [(2, 6)] := by
  intro f setUp product r s s' p p'
  have his : List.Forall₂ Interaction.Same (setUp (.int 0) (.int 2))
      (setUp (.real (-0.0)) (.real 2)) :=
    .cons (.bindGlobal "x" (.value (.number (by decide +kernel))))
      (.cons (.run (by decide +kernel)) .nil)
  have hs : s.Same s' :=
    ((Session.Same.refl (.start .standard)).afterAll Scalar.isCongruent_double his r).1
  have he : (product (.int 2) (.real 6) == product (.real 2) (.int 6)) = true := by decide +kernel
  let number? (x : Except (Stop Float Float) (Value Float Float)) : Option (Number Float) :=
    x.toOption.bind (·.toNumber.toOption)
  have hp : number? p.1 = some (.int 6) := by decide +kernel
  have hp' : number? p'.1 = some (.real 6) := by decide +kernel
  have hrequests : p.2.2.requests = [(2, 6)] := by decide +kernel
  have hplayed : Run.Played Value.Same p p' := (results_do_not_depend_on_form hs he r).2.1
  obtain ⟨hresult, -, hroller⟩ := hplayed
  rw [← hroller]
  generalize p.1 = a, p'.1 = a' at hresult hp hp' ⊢
  cases hresult with
  | error _ => cases hp
  | ok h =>
    cases h with
    | number hx =>
      exact ⟨_, _, rfl, rfl, Option.some_inj.1 hp, Option.some_inj.1 hp', hx, hrequests, hrequests⟩
    | sequence _ => cases hp
    | law _ => cases hp

end DiceCalculus
