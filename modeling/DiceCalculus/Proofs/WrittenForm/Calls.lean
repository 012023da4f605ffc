import DiceCalculus.Proofs.WrittenForm.Forms

set_option autoImplicit false
set_option relaxedAutoImplicit false

/-!
# Calls and expressions with numbers in other forms

A call finds the same function under its shape, and the function does the same with arguments that
answer in the same way: a built-in one since it respects the equality of numbers, a declared one since
its bodies are equal expressions. What is equal therefore answers in the same way, by induction first on
the fuel, which is for the bodies, and then on the expression.

## Main results

* `Meaning.same_call` — calls of the same function.
* `Expr.same_denote`, `Expr.same_meaning` — expressions that are equal.
-/

namespace DiceCalculus

variable {ρ μ : Type} [Scalar ρ]

/-- The greater of two numbers, up to its form. -/
lemma Number.compare_max_congr {x x' y y' : Number ρ} (hx : compare x x' = .eq)
    (hy : compare y y' = .eq) : compare (Number.max x y) (Number.max x' y') = .eq := by
  unfold Number.max
  rw [compare_congr hx hy]
  split
  · exact hx
  · exact hy

variable [Mass μ]

namespace Meaning

variable {args args' : Slots (Meaning ρ μ)} (hargs : args.Rel Same args')

include hargs

/-! ## Built-in functions -/

omit [Mass μ] in
/-- Samples of the greatest item. -/
lemma rel_value_max :
    Run.Rel Value.Same (Builtin.value args .max) (Builtin.value args' .max) := by
  have hfold {ns ns' : List (Number ρ)} (h : List.Forall₂ (fun n n' => compare n n' = .eq) ns ns') :
      ∀ n n' : Number ρ, compare n n' = .eq →
        compare (ns.foldl Number.max n) (ns'.foldl Number.max n') = .eq := by
    induction h with
    | nil => exact fun _ _ h => h
    | cons hk _ ih => exact fun _ _ h => ih _ _ (Number.compare_max_congr h hk)
  refine (Run.rel_ofExcept (hargs.nth 0)).bind fun x x' hx => hx.items.bind fun vs vs' hvs => ?_
  refine (Run.rel_ofExcept (.mapM hvs fun _ _ hv => hv.toNumber)).map fun ns ns' hns => ?_
  exact .number (hfold hns _ _ Std.ReflCmp.compare_self)

omit [Mass μ] in
/-- Samples of the branch that a test chooses. -/
lemma rel_value_branch :
    Run.Rel Value.Same (Builtin.value args .branch) (Builtin.value args' .branch) := by
  refine (Run.rel_ofExcept (hargs.nth 0)).bind fun x x' hx => rel_bind_number hx fun n n' hn => ?_
  rw [Number.isZero_congr hn]
  exact (Run.rel_ofExcept (hargs.firstOf _)).bind fun _ _ hchosen => hchosen.value

/-- Branches that are added to a mixture. -/
lemma rel_mixBranch (keyword : String) (chance : μ) {l l' : Law ρ μ} (hl : l.Same l') :
    Run.Rel Law.Same (Builtin.mixBranch args keyword chance l)
      (Builtin.mixBranch args' keyword chance l') := by
  unfold Builtin.mixBranch
  split
  · exact (Run.rel_ofExcept (hargs.firstOf keyword)).bind fun _ _ hx =>
      hx.law.map fun _ _ hd => hl.addScaled chance hd
  · exact Run.rel_pure hl

omit hargs in
/-- The mass of all outcomes that are not zero. -/
lemma chanceOfNonzero_eq {l l' : Law ρ μ} (h : l.Same l') :
    Builtin.chanceOfNonzero l = Builtin.chanceOfNonzero l' := by
  have hentries : List.Forall₂ Table.EntrySame
      (l.entries.filter fun e => e.1 != .single (.number .zero))
      (l'.entries.filter fun e => e.1 != .single (.number .zero)) := by
    refine List.rel_filter (fun e e' he => ?_) h
    show (!(compare e.1 _ == .eq)) = true ↔ (!(compare e'.1 _ == .eq)) = true
    rw [Std.TransCmp.congr_left he.1]
  exact congrArg (List.foldl (· + ·) Mass.neutral) (Table.map_snd_eq hentries)

/-- Laws of the branch that a test chooses. -/
lemma rel_exact_branch :
    Run.Rel Law.Same (Builtin.exact args .branch) (Builtin.exact args' .branch) := by
  refine (Run.rel_ofExcept (hargs.nth 0)).bind fun x x' hx => hx.law.bind fun test test' htest => ?_
  rw [chanceOfNonzero_eq htest, htest.massOf_eq]
  exact (rel_mixBranch hargs _ _ (.refl _)).bind fun _ _ => rel_mixBranch hargs _ _

/-- Built-in functions. -/
lemma rel_builtin (b : Builtin) (m : Mode) :
    Run.Rel m.SameAnswers (b.answer args m) (b.answer args' m) := by
  have hargument := Run.rel_ofExcept (hargs.nth (ρ := ρ) (μ := μ) 0)
  cases m with
  | sample =>
    cases b with
    | max => exact rel_value_max hargs
    | branch => exact rel_value_branch hargs
    | law => exact hargument.bind fun _ _ hx => hx.law.map fun _ _ hl => .law hl
  | exact =>
    cases b with
    | max => exact hargument.bind fun _ _ hx => hx.laws.bind fun _ _ hls =>
        rel_calculate fun limits => Law.rel_maximum limits hls
    | branch => exact rel_exact_branch hargs
    | law => exact hargument.bind fun _ _ hx => hx.law

/-! ## Declared functions -/

omit [Mass μ] in
/-- What the parameters of a function hold. -/
lemma rel_bind (signature : Signature) (m : Mode) :
    Run.Rel (List.Forall₂ fun b b' => b.1 = b'.1 ∧ Binding.Same b.2 b'.2)
      (Closure.bind signature args m) (Closure.bind signature args' m) :=
  .mapM (hargs.zip _) fun _ _ ha => (ha.2.stored m).map fun _ _ hb => ⟨ha.1, hb⟩

/-- Bodies that are equal are run in the same way. -/
def SameBodies (enter enter' : Enter ρ μ) : Prop :=
  ∀ body body' : List (Expr ρ), List.Forall₂ (fun e e' => e.isSame e' = true) body body' →
    ∀ m, Run.Rel m.SameAnswers (enter body m) (enter' body' m)

variable {enter enter' : Enter ρ μ} (henter : SameBodies enter enter')

include henter

/-- Calls of a function. -/
lemma rel_answer {f f' : Function ρ} (hf : f.Same f') (m : Mode) :
    Run.Rel m.SameAnswers (f.answer enter args m) (f'.answer enter' args' m) := by
  cases hf with
  | builtin b => exact rel_builtin hargs b m
  | user hbody =>
    exact (rel_bind hargs _ m).bind fun _ _ hbs =>
      Run.rel_activation (henter _ _ hbody m) _ hbs

/-- Calls under a shape. -/
theorem same_call (shape : Shape) : (call enter shape args).Same (call enter' shape args') :=
  same_ofViews ((Run.rel_function shape).bind fun _ _ hf => rel_answer hargs henter hf .sample)
    ((Run.rel_function shape).bind fun _ _ hf => rel_answer hargs henter hf .exact)

end Meaning

/-! ## Expressions -/

namespace Expr

variable (hρ : Scalar.IsCongruent ρ)

include hρ

/-- Expressions that are equal have the same meaning if bodies that are equal are run in the same way.

**Proof sketch.** By induction over the first expression. The second is built in the same way of parts
that are equal to its parts, and of literals that compare equal. -/
theorem same_denote {enter enter' : Enter ρ μ} (henter : Meaning.SameBodies enter enter')
    {e e' : Expr ρ} (he : e.isSame e' = true) : (e.denote enter).Same (e'.denote enter') := by
  induction e using induction_parts generalizing e' with
  | h e ih =>
    cases e with
    | literal x =>
      cases e' with
      | literal x' => exact Meaning.same_literal (eq_of_beq he)
      | _ => cases he
    | binary op left right =>
      cases e' with
      | binary op' left' right' =>
        simp only [isSame, Bool.and_eq_true, beq_iff_eq] at he
        obtain ⟨⟨rfl, hleft⟩, hright⟩ := he
        exact Meaning.same_binary (hρ op) (ih left (by simp [parts]) hleft)
          (ih right (by simp [parts]) hright)
      | _ => cases he
    | dice count sides =>
      cases e' with
      | dice count' sides' =>
        simp only [isSame, Bool.and_eq_true] at he
        exact Meaning.same_dice (ih count (by simp [parts]) he.1) (ih sides (by simp [parts]) he.2)
      | _ => cases he
    | sequence es =>
      cases e' with
      | sequence es' =>
        rw [denote, denote, denoteAll_eq_map, denoteAll_eq_map]
        exact Meaning.same_sequence (forall₂_map_of_mem (areSame_iff.1 he) ih)
      | _ => cases he
    | var name =>
      cases e' with
      | var name' =>
        obtain rfl := eq_of_beq he
        exact Meaning.same_var name
      | _ => cases he
    | assign name e =>
      cases e' with
      | assign name' e' =>
        simp only [isSame, Bool.and_eq_true, beq_iff_eq] at he
        obtain ⟨rfl, he⟩ := he
        exact Meaning.same_assign name (ih e (by simp [parts]) he)
      | _ => cases he
    | call shape arguments =>
      cases e' with
      | call shape' arguments' =>
        obtain ⟨es, gs⟩ := arguments
        obtain ⟨es', gs'⟩ := arguments'
        simp only [isSame, Bool.and_eq_true, beq_iff_eq] at he
        obtain ⟨⟨rfl, hes⟩, hgs⟩ := he
        rw [denote_call, denote_call]
        have harguments : Slots.Rel (fun e e' => isSame e e' = true) ⟨es, gs⟩ ⟨es', gs'⟩ :=
          ⟨areSame_iff.1 hes, groupsAreSame_iff.1 hgs⟩
        exact Meaning.same_call (harguments.map ih) henter shape
      | _ => cases he
    | block es =>
      cases e' with
      | block es' =>
        rw [denote, denote, denoteAll_eq_map, denoteAll_eq_map]
        exact Meaning.same_block (forall₂_map_of_mem (areSame_iff.1 he) ih)
      | _ => cases he
    | output e =>
      cases e' with
      | output e' => exact Meaning.same_output (ih e (by simp [parts]) he)
      | _ => cases he
    | declare signature body =>
      cases e' with
      | declare signature' body' =>
        simp only [isSame, Bool.and_eq_true, beq_iff_eq] at he
        obtain ⟨rfl, hbody⟩ := he
        exact Meaning.same_declare signature (areSame_iff.1 hbody)
      | _ => cases he

/-- Expressions that are equal have the same meaning, with any amount of fuel. -/
theorem same_meaning (fuel : Nat) {e e' : Expr ρ} (he : e.isSame e' = true) :
    (e.meaning (μ := μ) fuel).Same (e'.meaning fuel) := by
  induction fuel generalizing e e' with
  | zero => exact same_denote hρ (fun _ _ _ _ => Run.rel_outOfFuel) he
  | succ fuel ih =>
    refine same_denote hρ (fun body body' hbody m => ?_) he
    exact Meaning.rel_resultOf (List.rel_map (fun _ _ h => ih h) hbody) m

end Expr

end DiceCalculus
