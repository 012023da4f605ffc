import DiceCalculus.Proofs.Plan.Forms

set_option autoImplicit false
set_option relaxedAutoImplicit false

/-!
# Taking the steps of a plan gives the meaning

## Main definitions

* `Plans.meaning`, `PlannedSlots.meaning` — the answers that come of taking the steps of plans.

## Main results

* `Plans.meaning_binary` and its siblings — form by form, taking the steps of the plans of an
  expression gives its meaning in terms of what the plans of its parts give.
* `Expr.meaning_plans` — for all expressions.
-/

namespace DiceCalculus

variable {ρ μ : Type} [Scalar ρ]

namespace Plans

/-- The answers that come of taking the steps, given how bodies are run. -/
def meaning (enter : Enter ρ μ) (x : Plans ρ μ) : Meaning ρ μ where
  value := x.value.run enter
  items := x.items.run enter
  law := x.law.run enter
  laws := x.laws.run enter
  stored m := (x.stored m).run enter
  step m := (x.step m).run enter

end Plans

namespace PlannedSlots

/-- The meanings that come of taking the steps. -/
def meaning (enter : Enter ρ μ) (args : PlannedSlots ρ μ) : Slots (Meaning ρ μ) where
  positional := args.positional.map (·.meaning enter)
  keywords := args.keywords.map fun g => (g.1, g.2.map (·.meaning enter))

end PlannedSlots

/-- Meanings with the same answers are equal. -/
lemma Meaning.eq_of_answers {x y : Meaning ρ μ} (value : x.value = y.value)
    (items : x.items = y.items) (law : x.law = y.law) (laws : x.laws = y.laws)
    (stored : ∀ m, x.stored m = y.stored m) (step : ∀ m, x.step m = y.step m) : x = y := by
  obtain ⟨_, _, _, _, _, _⟩ := x
  obtain ⟨_, _, _, _, _, _⟩ := y
  exact (Meaning.mk.injEq ..).mpr ⟨value, items, law, laws, funext stored, funext step⟩

variable (enter : Enter ρ μ)

namespace Plans

/-- An expression that is its own only component. -/
lemma meaning_ofViews (value : Plan ρ μ .sample .expression (Value ρ μ))
    (law : Plan ρ μ .exact .expression (Law ρ μ)) :
    (ofViews value law).meaning enter = .ofViews (value.run enter) (law.run enter) := by
  unfold meaning ofViews Meaning.ofViews
  simp only [Plan.run_bind, Plan.run_pure, Meaning.mk.injEq, true_and]
  constructor
  · funext m
    cases m <;> simp
  · funext m
    cases m <;> rfl

/-- A statement. -/
lemma meaning_ofStatement (kind : Kind)
    (step : (m : Mode) → Plan ρ μ m .statement (Flow (m.Answer ρ μ))) :
    (ofStatement kind step).meaning enter = .ofStatement kind fun m => (step m).run enter := by
  unfold meaning ofStatement Meaning.ofStatement
  simp only [Plan.run_fail, Meaning.mk.injEq, true_and, and_true]
  funext m
  cases m <;> simp

/-- Statements, up to the first that ends the list. -/
lemma run_runFrom (m : Mode) (last : Option (m.Answer ρ μ)) (xs : List (Plans ρ μ)) :
    (runFrom m last xs).run enter = Meaning.runFrom m last (xs.map (·.meaning enter)) := by
  induction xs generalizing last with
  | nil => rfl
  | cons x xs ih =>
    rw [runFrom, List.map_cons, Meaning.runFrom, Plan.run_bind]
    refine congrArg (_ >>= ·) (funext fun flow => ?_)
    cases flow with
    | next a => exact ih a
    | ended a => rfl

/-- The value of statements. -/
lemma run_resultOf (m : Mode) (xs : List (Plans ρ μ)) :
    (resultOf m xs).run enter = Meaning.resultOf m (xs.map (·.meaning enter)) := by
  unfold resultOf Meaning.resultOf runAll Meaning.runAll
  rw [Plan.run_bind, run_runFrom]
  simp only [Plan.run_ofExcept]

/-! ## Forms of expressions -/

/-- The faces of a roll. -/
lemma run_faces (count sides : Plans ρ μ) :
    (faces count sides).run enter = Meaning.faces (count.meaning enter) (sides.meaning enter) := by
  unfold faces
  simp only [Plan.run_bind, Plan.run_ofExcept, Plan.run, Plan.run_pure]
  rfl

/-- A sequence. -/
lemma meaning_sequence (xs : List (Plans ρ μ)) :
    (sequence xs).meaning enter = .sequence (xs.map (·.meaning enter)) := by
  have hitems : (Plan.each (·.value) xs).run enter = (xs.map (·.meaning enter)).mapM (·.value) :=
    Plan.run_each enter _ (fun _ => rfl) xs
  have hlaws : (Plan.each (·.law) xs).run enter = (xs.map (·.meaning enter)).mapM (·.law) :=
    Plan.run_each enter _ (fun _ => rfl) xs
  have hwhole := meaning_ofViews enter
    (do return .sequence (← Plan.each (·.value) xs)) (.fail (.unsupported .takeLaw (.expr .sequence)))
  rw [Plan.run_fail, Plan.run_bind, hitems] at hwhole
  refine Meaning.eq_of_answers (congrArg Meaning.value hwhole :) hitems
    (congrArg Meaning.law hwhole :) hlaws (fun m => ?_) (congrFun (congrArg Meaning.step hwhole) :)
  cases m with
  | sample => exact (congrFun (congrArg Meaning.stored hwhole) .sample :)
  | exact =>
    show Plan.run enter (do return Binding.laws (← Plan.each (·.law) xs)) = _
    rw [Plan.run_bind, hlaws]
    rfl

/-- An assignment. -/
lemma meaning_assign (name : String) (x : Plans ρ μ) :
    (assign name x).meaning enter = .assign name (x.meaning enter) :=
  meaning_ofStatement enter _ _

/-- An output. -/
lemma meaning_output (x : Plans ρ μ) :
    (output x).meaning enter = .output (x.meaning enter) := by
  unfold output
  rw [meaning_ofStatement]
  refine congrArg _ (funext fun m => ?_)
  cases m <;> rfl

/-- A declaration. -/
lemma meaning_declare (signature : Signature) (body : List (Expr ρ)) :
    (declare signature body : Plans ρ μ).meaning enter = .declare signature body :=
  meaning_ofStatement enter _ _

/-- A block. -/
lemma meaning_block (xs : List (Plans ρ μ)) :
    (block xs).meaning enter = .block (xs.map (·.meaning enter)) := by
  have hframe {m : Mode} {p : Part} {α : Type} (x : Plan ρ μ m .statement α) :
      (Plan.frame x .done : Plan ρ μ m p α).run enter = Run.inFreshFrame (x.run enter) :=
    bind_pure _
  have hwhole := meaning_ofViews enter
    (.frame (resultOf .sample xs) .done) (.frame (resultOf .exact xs) .done)
  rw [hframe, hframe, run_resultOf, run_resultOf] at hwhole
  refine Meaning.eq_of_answers (congrArg Meaning.value hwhole :) (congrArg Meaning.items hwhole :)
    (congrArg Meaning.law hwhole :) (congrArg Meaning.laws hwhole :)
    (congrFun (congrArg Meaning.stored hwhole) :) fun m => ?_
  exact (hframe _).trans (congrArg _ (run_runFrom enter m none xs))

variable [Mass μ]

/-- A number. -/
lemma meaning_literal (x : Number ρ) :
    (literal x : Plans ρ μ).meaning enter = .literal x := meaning_ofViews enter _ _

/-- An operator. -/
theorem meaning_binary (op : Operator) (left right : Plans ρ μ) :
    (binary op left right).meaning enter =
      .binary op (left.meaning enter) (right.meaning enter) := by
  unfold binary
  rw [meaning_ofViews]
  simp only [Plan.run_bind, Plan.run_ofExcept, Plan.run_ofCalculation, Plan.run_pure,
    Run.calculate, Calculation.under_operate]
  rfl

/-- A roll. -/
lemma meaning_dice (count sides : Plans ρ μ) :
    (dice count sides).meaning enter = .dice (count.meaning enter) (sides.meaning enter) := by
  have hwhole := meaning_ofViews enter
    (do return .number ((← faces count sides).foldl (· + ·) .zero))
    (do
      let l ← count.law
      let l' ← sides.law
      .ofCalculation (.sum l l'))
  simp only [Plan.run_bind, Plan.run_pure, Plan.run_ofCalculation, Run.calculate,
    Calculation.under_sum, run_faces] at hwhole
  refine Meaning.eq_of_answers (congrArg Meaning.value hwhole :) ?_ (congrArg Meaning.law hwhole :) ?_
    (congrFun (congrArg Meaning.stored hwhole) :) (congrFun (congrArg Meaning.step hwhole) :)
  · show Plan.run enter (do return (← faces count sides).map Value.number) = _
    rw [Plan.run_bind, run_faces]
    rfl
  · show Plan.run enter (do
      let l ← count.law
      let l' ← sides.law
      .ofCalculation (.dice l l')) = _
    simp only [Plan.run_bind, Plan.run_ofCalculation, Run.calculate, Calculation.under_dice]
    rfl

/-- A variable. -/
lemma meaning_var (name : String) : (var name : Plans ρ μ).meaning enter = .var name := by
  have hwhole := meaning_ofViews enter
    (.lookup name fun b : Binding ρ μ => return b.toValue)
    (.lookup name fun b => .ofExcept b.toLaw)
  simp only [Plan.run, Plan.run_pure, Plan.run_ofExcept] at hwhole
  refine Meaning.eq_of_answers (congrArg Meaning.value hwhole :) rfl (congrArg Meaning.law hwhole :) ?_
    (fun m => ?_) (congrFun (congrArg Meaning.step hwhole) :)
  · show Plan.run enter (.lookup name fun b => .ofExcept b.toLaws) = _
    simp only [Plan.run, Plan.run_ofExcept]
    rfl
  · cases m with
    | sample => exact (congrFun (congrArg Meaning.stored hwhole) .sample :)
    | exact => exact bind_pure _

end Plans

/-! ## Calls -/

namespace PlannedSlots

variable {m : Mode} {p : Part} {α : Type} (args : PlannedSlots ρ μ)

/-- The group of meanings under a keyword. -/
lemma group?_meaning (keyword : String) : (args.meaning enter).group? keyword =
    (args.keywords.lookup keyword).map (·.map (·.meaning enter)) := by
  obtain ⟨_, gs⟩ := args
  show (gs.map fun g => (g.1, g.2.map (·.meaning enter))).lookup keyword = _
  induction gs with
  | nil => rfl
  | cons g gs ih =>
    rw [List.map_cons, List.lookup_cons, List.lookup_cons]
    split
    · rfl
    · exact ih

/-- An argument at a position. -/
lemma run_withNth (position : Nat) {next : Plans ρ μ → Plan ρ μ m p α}
    {act : Meaning ρ μ → Run ρ μ α} (h : ∀ x, (next x).run enter = act (x.meaning enter)) :
    (args.withNth position next).run enter =
      Run.ofExcept ((args.meaning enter).nth position) >>= act := by
  unfold withNth Slots.nth meaning
  rw [List.getElem?_map]
  cases args.positional[position]? with
  | none => exact Plan.run_fail enter _
  | some x => exact h x

/-- The first argument under a keyword. -/
lemma run_withFirst (keyword : String) {next : Plans ρ μ → Plan ρ μ m p α}
    {act : Meaning ρ μ → Run ρ μ α} (h : ∀ x, (next x).run enter = act (x.meaning enter)) :
    (args.withFirst keyword next).run enter =
      Run.ofExcept ((args.meaning enter).firstOf keyword) >>= act := by
  unfold withFirst Slots.firstOf
  rw [group?_meaning]
  cases args.keywords.lookup keyword with
  | none => exact Plan.run_fail enter _
  | some xs =>
    cases xs with
    | nil => exact Plan.run_fail enter _
    | cons x xs => exact h x

/-- The names of parameters with the meanings of the arguments for them. -/
lemma map_zip (names : Slots String) :
    (zip names args).map (fun a => (a.1, a.2.meaning enter)) = names.zip (args.meaning enter) := by
  have hzip (ks : List String) (xs : List (Plans ρ μ)) :
      (ks.zip xs).map (fun a => (a.1, a.2.meaning enter)) = ks.zip (xs.map (·.meaning enter)) := by
    rw [List.zip_map_right]
    rfl
  unfold zip Slots.zip
  rw [List.map_append, hzip, List.map_flatMap]
  refine congrArg (_ ++ List.flatMap · names.keywords) (funext fun g => ?_)
  rw [group?_meaning]
  cases args.keywords.lookup g.1 with
  | none => rfl
  | some xs => exact hzip g.2 xs

/-- What the parameters of a function hold. -/
lemma run_bind (m : Mode) (signature : Signature) :
    (args.bind m signature).run enter = Closure.bind signature (args.meaning enter) m := by
  unfold bind Closure.bind
  rw [Plan.run_each enter (fun a : String × Plans ρ μ => (a.1, a.2.meaning enter))
    (k := fun a => do return (a.1, ← a.2.stored m)) (fun a => Plan.run_bind enter _ _), map_zip]

/-- A built-in function, sampled. -/
lemma run_value (b : Builtin) : (args.value b).run enter = b.value (args.meaning enter) := by
  cases b with
  | max =>
    refine run_withNth enter args 0 fun x => ?_
    simp only [Plan.run_bind, Plan.run_ofExcept, Plan.run_pure]
    rfl
  | branch =>
    refine run_withNth enter args 0 fun x => ?_
    simp only [Plan.run_bind, Plan.run_ofExcept]
    refine congrArg (_ >>= ·) (funext fun v => congrArg (_ >>= ·) (funext fun test => ?_))
    exact run_withFirst enter args _ fun _ => rfl
  | law => exact run_withNth enter args 0 fun x => rfl

variable [Mass μ]

/-- A branch of a mixture. -/
lemma run_mixBranch (keyword : String) (chance : μ) (mixture : Law ρ μ) :
    (args.mixBranch keyword chance mixture).run enter =
      Builtin.mixBranch (args.meaning enter) keyword chance mixture := by
  unfold mixBranch Builtin.mixBranch
  split
  · exact run_withFirst enter args keyword fun x => Plan.run_bind enter _ _
  · rfl

/-- A built-in function as a law. -/
lemma run_exact (b : Builtin) : (args.exact b).run enter = b.exact (args.meaning enter) := by
  cases b with
  | max =>
    refine run_withNth enter args 0 fun x => ?_
    simp only [Plan.run_bind, Plan.run_ofCalculation, Run.calculate, Calculation.under_maximum]
    rfl
  | branch =>
    refine run_withNth enter args 0 fun x => ?_
    simp only [Plan.run_bind, run_mixBranch]
    rfl
  | law => exact run_withNth enter args 0 fun x => rfl

end PlannedSlots

variable [Mass μ]

/-- A call. -/
lemma Plans.meaning_call (shape : Shape) (args : PlannedSlots ρ μ) :
    (call shape args).meaning enter = .call enter shape (args.meaning enter) := by
  unfold call Meaning.call
  rw [meaning_ofViews]
  simp only [Plan.run, PlannedSlots.answer, PlannedSlots.run_value, PlannedSlots.run_exact,
    PlannedSlots.run_bind, bind_pure]
  rfl

/-! ## Expressions -/

namespace Expr

/-- The plans of a list of expressions, one by one. -/
lemma plansAll_eq_map (es : List (Expr ρ)) :
    (plansAll es : List (Plans ρ μ)) = es.map plans := by
  induction es with
  | nil => rfl
  | cons e es ih => rw [plansAll, ih, List.map_cons]

/-- The plans of groups of expressions, one by one. -/
lemma plansGroups_eq_map (gs : List (String × List (Expr ρ))) :
    (plansGroups gs : List (String × List (Plans ρ μ))) = gs.map fun g => (g.1, g.2.map plans) := by
  induction gs with
  | nil => rfl
  | cons g gs ih => rw [plansGroups, ih, plansAll_eq_map, List.map_cons]

/-- Taking the steps of the plans of an expression gives its meaning.

**Proof sketch.** By induction over the parts of the expression, a form at a time. -/
theorem meaning_plans (e : Expr ρ) : (e.plans : Plans ρ μ).meaning enter = e.denote enter := by
  induction e using induction_parts with
  | h e ih =>
    have hmap (es : List (Expr ρ)) (hes : ∀ e ∈ es, e.plans.meaning enter = e.denote enter) :
        (plansAll es).map (·.meaning enter) = es.map (denote enter) := by
      rw [plansAll_eq_map, List.map_map]
      exact List.map_congr_left hes
    cases e with
    | literal x => exact Plans.meaning_literal enter x
    | var name => exact Plans.meaning_var enter name
    | binary op left right =>
      rw [plans, denote, Plans.meaning_binary, ih left (by simp [parts]), ih right (by simp [parts])]
    | dice count sides =>
      rw [plans, denote, Plans.meaning_dice, ih count (by simp [parts]), ih sides (by simp [parts])]
    | sequence es => rw [plans, denote, Plans.meaning_sequence, hmap es ih, denoteAll_eq_map]
    | assign name e => rw [plans, denote, Plans.meaning_assign, ih e (by simp [parts])]
    | call shape arguments =>
      obtain ⟨es, gs⟩ := arguments
      rw [plans, denote_call, Plans.meaning_call]
      refine congrArg (Meaning.call enter shape) ?_
      show Slots.mk _ _ = Slots.mk _ _
      rw [hmap es fun e he => ih e (List.mem_append_left _ he), plansGroups_eq_map, List.map_map]
      refine congrArg (Slots.mk _) (List.map_congr_left fun g hg => congrArg (Prod.mk g.1) ?_)
      show (g.2.map plans).map _ = _
      rw [← plansAll_eq_map]
      exact hmap g.2 fun e he => ih e (List.mem_append_right _ (List.mem_flatMap.2 ⟨g, hg, he⟩))
    | block es => rw [plans, denote, Plans.meaning_block, hmap es ih, denoteAll_eq_map]
    | output e => rw [plans, denote, Plans.meaning_output, ih e (by simp [parts])]
    | declare signature body => exact Plans.meaning_declare enter signature body

end Expr

/-- Taking the steps of the plan of a body runs its statements. -/
lemma Plan.run_ofBody (body : List (Expr ρ)) (m : Mode) :
    (ofBody body m : Plan ρ μ m _ _).run enter = Meaning.resultOf m (body.map (Expr.denote enter)) := by
  rw [ofBody, Plans.run_resultOf, Expr.plansAll_eq_map, List.map_map]
  exact congrArg (Meaning.resultOf m) (List.map_congr_left fun e _ => e.meaning_plans enter)

end DiceCalculus
