import DiceCalculus.Proofs.Expr.Parts
import DiceCalculus.Proofs.WrittenForm.Runs

set_option autoImplicit false
set_option relaxedAutoImplicit false

/-!
# The forms of expressions with numbers in other forms

If the parts of two expressions answer in the same way, so do the expressions, form by form.

## Main definitions

* `Mode.SameAnswers` — values or laws that are the same.
* `Meaning.Same` — meanings that answer in the same way.
* `Slots.Rel` — arguments that are related place by place.

## Main results

* `Meaning.same_binary` and its siblings — one statement for each form of expressions but calls.
* `Slots.Rel.nth`, `Slots.Rel.firstOf`, `Slots.Rel.zip` — arguments that are found by position and by
  keyword.
-/

namespace DiceCalculus

variable {ρ μ α β : Type} [Scalar ρ]

/-! ## Answers -/

/-- Values that are the same if the mode is to sample, and laws that are the same if it is not. -/
def Mode.SameAnswers : (m : Mode) → m.Answer ρ μ → m.Answer ρ μ → Prop
  | .sample => Value.Same
  | .exact => Law.Same

/-- Meanings that answer in the same way. -/
structure Meaning.Same (x x' : Meaning ρ μ) : Prop where
  /-- The sampled values. -/
  value : Run.Rel Value.Same x.value x'.value
  /-- The sampled values of the components. -/
  items : Run.Rel (List.Forall₂ Value.Same) x.items x'.items
  /-- The laws. -/
  law : Run.Rel Law.Same x.law x'.law
  /-- The laws of the components. -/
  laws : Run.Rel (List.Forall₂ Law.Same) x.laws x'.laws
  /-- What variables hold to which the expressions are assigned. -/
  stored : ∀ m, Run.Rel Binding.Same (x.stored m) (x'.stored m)
  /-- The expressions as statements. -/
  step : ∀ m, Run.Rel (Flow.Rel m.SameAnswers) (x.step m) (x'.step m)

namespace Meaning

variable {x x' y y' : Meaning ρ μ} {xs xs' : List (Meaning ρ μ)}

/-- The answers in a mode. -/
lemma Same.answer (h : x.Same x') (m : Mode) : Run.Rel m.SameAnswers (x.answer m) (x'.answer m) := by
  cases m with
  | sample => exact h.value
  | exact => exact h.law

/-- Expressions that are their own only components. -/
lemma same_ofViews {value value' : Run ρ μ (Value ρ μ)} {law law' : Run ρ μ (Law ρ μ)}
    (hvalue : Run.Rel Value.Same value value') (hlaw : Run.Rel Law.Same law law') :
    (ofViews value law).Same (ofViews value' law') where
  value := hvalue
  items := hvalue.map fun _ _ h => .cons h .nil
  law := hlaw
  laws := hlaw.map fun _ _ h => .cons h .nil
  stored m := by
    cases m with
    | sample => exact hvalue.map fun _ _ h => .value h
    | exact => exact hlaw.map fun _ _ h => .law h
  step m := by
    cases m with
    | sample => exact hvalue.map fun _ _ h => .next (.some h)
    | exact => exact hlaw.map fun _ _ h => .next (.some h)

/-- Statements without values and laws. -/
lemma same_ofStatement (kind : Kind) {step step' : (m : Mode) → Run ρ μ (Flow (m.Answer ρ μ))}
    (h : ∀ m, Run.Rel (Flow.Rel m.SameAnswers) (step m) (step' m)) :
    (ofStatement kind step).Same (ofStatement kind step') where
  value := Run.rel_fail (.refl _)
  items := Run.rel_fail (.refl _)
  law := Run.rel_fail (.refl _)
  laws := Run.rel_fail (.refl _)
  stored m := by
    cases m with
    | sample => exact Run.rel_fail (.refl _)
    | exact => exact Run.rel_fail (.refl _)
  step := h

/-- Assignments. -/
lemma same_assign (name : String) (hx : x.Same x') : (assign name x).Same (assign name x') :=
  same_ofStatement .assignment fun m => (hx.stored m).bind fun _ _ hb =>
    (Run.rel_assign name hb).map fun _ _ _ => .next .none

/-- Outputs. -/
lemma same_output (hx : x.Same x') : (output x).Same (output x') :=
  same_ofStatement .output fun m => (hx.answer m).map fun _ _ h => .ended h

/-- Declarations. -/
lemma same_declare (signature : Signature) {body body' : List (Expr ρ)}
    (hbody : List.Forall₂ (fun e e' => e.isSame e' = true) body body') :
    (declare (μ := μ) signature body).Same (declare signature body') :=
  same_ofStatement .declaration fun _ =>
    (Run.rel_declare signature hbody).map fun _ _ _ => .next .none

/-! ## Statement lists -/

section Statements

variable (hxs : List.Forall₂ Same xs xs')

include hxs

/-- Statements in the current frame. -/
lemma rel_runFrom (m : Mode) {last last' : Option (m.Answer ρ μ)}
    (hlast : Option.Rel m.SameAnswers last last') :
    Run.Rel (Flow.Rel m.SameAnswers) (runFrom m last xs) (runFrom m last' xs') := by
  induction hxs generalizing last last' with
  | nil => exact Run.rel_pure (.next hlast)
  | cons hx _ ih =>
    refine (hx.step m).bind fun f f' hf => ?_
    cases hf with
    | next h => exact ih h
    | ended h => exact Run.rel_pure (.ended h)

/-- The value of statements in the current frame. -/
lemma rel_resultOf (m : Mode) : Run.Rel m.SameAnswers (resultOf m xs) (resultOf m xs') :=
  (rel_runFrom hxs m .none).bind fun _ _ hf => Run.rel_ofExcept hf.result

/-- Blocks. -/
lemma same_block : (block xs).Same (block xs') :=
  { same_ofViews (Run.rel_inFreshFrame (rel_resultOf hxs .sample))
      (Run.rel_inFreshFrame (rel_resultOf hxs .exact)) with
    step := fun m => Run.rel_inFreshFrame (rel_runFrom hxs m .none) }

end Statements

/-! ## Numbers, variables and sequences -/

variable [Mass μ]

/-- Numbers that compare equal. -/
lemma same_literal {n n' : Number ρ} (h : compare n n' = .eq) :
    (literal (μ := μ) n).Same (literal n') :=
  same_ofViews (Run.rel_pure (.number h)) (Run.rel_pure (Law.same_certain h))

/-- Variables. -/
lemma same_var (name : String) : (var name : Meaning ρ μ).Same (var name) := by
  have hlookup := Run.rel_lookup (ρ := ρ) (μ := μ) name
  have hvalue := hlookup.map fun _ _ hb => hb.toValue
  have hwhole : (ofViews (var name).value (var name).law : Meaning ρ μ).Same
      (ofViews (var name).value (var name).law) :=
    same_ofViews hvalue (hlookup.bind fun _ _ hb => Run.rel_ofExcept hb.toLaw)
  refine { hwhole with items := ?_, laws := ?_, stored := fun m => ?_ }
  · exact hlookup.map fun _ _ hb => hb.items
  · exact hlookup.bind fun _ _ hb => Run.rel_ofExcept hb.toLaws
  · cases m with
    | sample => exact hwhole.stored .sample
    | exact => exact hlookup

omit [Mass μ] in
/-- Sequences. -/
lemma same_sequence (hxs : List.Forall₂ Same xs xs') : (sequence xs).Same (sequence xs') := by
  have hitems : Run.Rel (List.Forall₂ Value.Same) (xs.mapM (·.value)) (xs'.mapM (·.value)) :=
    .mapM hxs fun _ _ hx => hx.value
  have hlaws : Run.Rel (List.Forall₂ Law.Same) (xs.mapM (·.law)) (xs'.mapM (·.law)) :=
    .mapM hxs fun _ _ hx => hx.law
  have hwhole : (ofViews (sequence xs).value (sequence xs).law).Same
      (ofViews (sequence xs').value (sequence xs').law) :=
    same_ofViews (hitems.map fun _ _ h => .sequence h) (Run.rel_fail (.refl _))
  refine { hwhole with items := hitems, laws := hlaws, stored := fun m => ?_ }
  cases m with
  | sample => exact hwhole.stored .sample
  | exact => exact hlaws.map fun _ _ h => .laws h

/-! ## Operators and rolls -/

omit [Mass μ] in
/-- Expressions that are sampled to numbers. -/
lemma rel_bind_number (hx : x.Same x') {R : α → β → Prop} {f : Number ρ → Run ρ μ α}
    {g : Number ρ → Run ρ μ β} (h : ∀ n n', compare n n' = .eq → Run.Rel R (f n) (g n')) :
    Run.Rel R (do f (← Run.ofExcept (← x.value).toNumber))
      (do g (← Run.ofExcept (← x'.value).toNumber)) :=
  hx.value.bind fun _ _ hv => (Run.rel_ofExcept hv.toNumber).bind h

omit [Mass μ] in
/-- Calculations under the limits of the session. -/
lemma rel_calculate {R : α → β → Prop} {c : Limits μ → Except (Fault ρ μ) α}
    {c' : Limits μ → Except (Fault ρ μ) β}
    (h : ∀ limits, Except.Rel Fault.Same R (c limits) (c' limits)) :
    Run.Rel R (do Run.ofExcept (c (← Run.read (·.limits))))
      (do Run.ofExcept (c' (← Run.read (·.limits)))) :=
  .ofRead (fun _ _ hs => hs.limits) fun limits => Run.rel_ofExcept (h limits)

/-- Operators between two expressions. -/
theorem same_binary {op : Operator} (hop : op.IsCongruent ρ) (hx : x.Same x') (hy : y.Same y') :
    (binary op x y).Same (binary op x' y') := by
  refine same_ofViews ?_ ?_
  · refine rel_bind_number hx fun n n' hn => rel_bind_number hy fun k k' hk => ?_
    have happly := Fault.rel_of_eq (Operator.rel_apply (μ := μ) hop hn hk)
    exact (Run.rel_ofExcept happly).map fun _ _ h => .number h
  · exact hx.law.bind fun _ _ hl => hy.law.bind fun _ _ hd =>
      rel_calculate fun limits => hl.operate limits hop hd

omit [Mass μ] in
/-- The faces of rolls. -/
lemma rel_faces (hx : x.Same x') (hy : y.Same y') : Run.Rel Eq (faces x y) (faces x' y') := by
  refine rel_bind_number hy fun k k' hk => ?_
  refine (Run.rel_ofExcept (Dice.rel_sides hk)).bind fun sides sides' hsides => ?_
  refine rel_bind_number hx fun n n' hn => ?_
  refine (Run.rel_ofExcept (Dice.rel_count hn)).bind fun count count' hcount => ?_
  subst hsides hcount
  exact (Run.rel_roll count sides).map fun _ _ h => h ▸ rfl

/-- Rolls. -/
lemma same_dice (hx : x.Same x') (hy : y.Same y') : (dice x y).Same (dice x' y') := by
  have hfaces := rel_faces hx hy
  have hnumbers {ns ns' : List (Number ρ)} (h : ns = ns') :
      List.Forall₂ Value.Same (ns.map (.number (μ := μ))) (ns'.map .number) :=
    h ▸ List.rel_map (R := Eq) (fun _ _ h => .number (h ▸ Std.ReflCmp.compare_self))
      (List.forall₂_same.2 fun _ _ => rfl)
  have hwhole : (ofViews (dice x y).value (dice x y).law).Same
      (ofViews (dice x' y').value (dice x' y').law) := by
    refine same_ofViews (hfaces.map fun _ _ h => h ▸ .number Std.ReflCmp.compare_self) ?_
    exact hx.law.bind fun _ _ hl => hy.law.bind fun _ _ hd =>
      rel_calculate fun limits => Dice.rel_law limits hl hd
  refine { hwhole with items := ?_, laws := ?_ }
  · exact hfaces.map fun _ _ => hnumbers
  · exact hx.law.bind fun _ _ hl => hy.law.bind fun _ _ hd =>
      rel_calculate fun limits => Dice.rel_laws limits hl hd

end Meaning

/-! ## Arguments -/

/-- Arguments that are related place by place. -/
structure Slots.Rel (R : α → β → Prop) (s : Slots α) (t : Slots β) : Prop where
  /-- The items by position. -/
  positional : List.Forall₂ R s.positional t.positional
  /-- The groups under the same keywords. -/
  keywords : List.Forall₂ (fun g g' => g.1 = g'.1 ∧ List.Forall₂ R g.2 g'.2) s.keywords t.keywords

/-- Functions of the items of lists that are related, which need to know that an item is one. -/
lemma forall₂_map_of_mem {γ δ : Type} {R : α → β → Prop} {Q : γ → δ → Prop} {f : α → γ} {g : β → δ}
    {xs : List α} {ys : List β} (h : List.Forall₂ R xs ys)
    (hfg : ∀ x ∈ xs, ∀ y, R x y → Q (f x) (g y)) : List.Forall₂ Q (xs.map f) (ys.map g) := by
  induction h with
  | nil => exact .nil
  | cons hxy _ ih =>
    rw [List.forall_mem_cons] at hfg
    exact .cons (hfg.1 _ hxy) (ih hfg.2)

namespace Slots.Rel

variable {R : α → β → Prop} {s : Slots α} {t : Slots β} (h : s.Rel R t)

include h

/-- Functions of arguments that are related. -/
lemma map {γ δ : Type} {Q : γ → δ → Prop} {f : α → γ} {g : β → δ}
    (hfg : ∀ x ∈ s.items, ∀ y, R x y → Q (f x) (g y)) : (s.map f).Rel Q (t.map g) where
  positional := forall₂_map_of_mem h.positional fun x hx => hfg x (List.mem_append_left _ hx)
  keywords := forall₂_map_of_mem h.keywords fun k hk _ hkk' =>
    ⟨hkk'.1, forall₂_map_of_mem hkk'.2 fun x hx =>
      hfg x (List.mem_append_right _ (List.mem_flatMap.2 ⟨k, hk, hx⟩))⟩

/-- The group under a keyword. -/
lemma group? (keyword : String) :
    Option.Rel (List.Forall₂ R) (s.group? keyword) (t.group? keyword) := by
  obtain ⟨-, h⟩ := h
  unfold Slots.group?
  generalize s.keywords = gs, t.keywords = gs' at h
  induction h with
  | nil => exact .none
  | @cons g g' _ _ hg _ ih =>
    obtain ⟨k, xs⟩ := g
    obtain ⟨k', ys⟩ := g'
    obtain ⟨rfl, hxs⟩ : k = k' ∧ List.Forall₂ R xs ys := hg
    rw [List.lookup_cons, List.lookup_cons]
    split
    · exact .some hxs
    · exact ih

/-- The argument at a position. -/
theorem nth (position : Nat) :
    Except.Rel Fault.Same R (s.nth (ρ := ρ) (μ := μ) position) (t.nth position) := by
  have hget : Option.Rel R s.positional[position]? t.positional[position]? := by
    obtain ⟨h, -⟩ := h
    generalize s.positional = xs, t.positional = ys at h
    induction h generalizing position with
    | nil => exact .none
    | cons hxy _ ih =>
      cases position with
      | zero => exact .some hxy
      | succ position => exact ih position
  unfold Slots.nth
  generalize s.positional[position]? = a, t.positional[position]? = b at hget
  cases hget with
  | none => exact .error (.refl _)
  | some h => exact .ok h

/-- The first argument under a keyword. -/
theorem firstOf (keyword : String) :
    Except.Rel Fault.Same R (s.firstOf (ρ := ρ) (μ := μ) keyword) (t.firstOf keyword) := by
  have hgroup := h.group? keyword
  unfold Slots.firstOf
  generalize s.group? keyword = xs, t.group? keyword = ys at hgroup
  cases hgroup with
  | none => exact .error (.refl _)
  | some hxs =>
    cases hxs with
    | nil => exact .error (.refl _)
    | cons hxy _ => exact .ok hxy

/-- The items, with those of the same layout of names. -/
theorem zip {γ : Type} (u : Slots γ) :
    List.Forall₂ (fun a b => a.1 = b.1 ∧ R a.2 b.2) (u.zip s) (u.zip t) := by
  have hzip (cs : List γ) {xs : List α} {ys : List β} (hxs : List.Forall₂ R xs ys) :
      List.Forall₂ (fun a b => a.1 = b.1 ∧ R a.2 b.2) (cs.zip xs) (cs.zip ys) := by
    induction hxs generalizing cs with
    | nil => simp
    | cons hxy _ ih =>
      cases cs with
      | nil => exact .nil
      | cons c cs => exact .cons ⟨rfl, hxy⟩ (ih cs)
  refine List.rel_append (hzip _ h.positional) ?_
  refine List.rel_flatMap (R := Eq) (List.forall₂_same.2 fun _ _ => rfl) fun g g' hg => ?_
  subst hg
  have hgroup := h.group? g.1
  generalize s.group? g.1 = xs, t.group? g.1 = ys at hgroup
  cases hgroup with
  | none => exact .nil
  | some hxs => exact hzip _ hxs

end Slots.Rel

end DiceCalculus
