import DiceCalculus.Proofs.Consistency
import DiceCalculus.Proofs.Law.Numbers

set_option autoImplicit false
set_option relaxedAutoImplicit false

/-!
# Absent dice stay inside a maximum

A die that may be missing has an absent outcome, which is no number. It is made where the components
of a roll are asked for, and it is gone when their maximum is taken. No variable, operator or result
ever meets one, and no evaluation fails for a cause that is not in what a user wrote.

## Main definitions

* `Expr.HasOwnShape` — a call has the shape of its own arguments.
* `Promise.ofNumbers` — the promise that all laws are laws of one number and no fault is internal.
* `Interaction.IsOfNumbers` — an interaction that brings in laws of one number only.

## Main results

* `Builtin.hasArguments_of_shape` — a call that reaches a built-in function has its arguments.
* `Promise.isSound_ofNumbers` — every calculation with laws keeps the promise.
* `laws_are_of_numbers` — in every session that can be reached, all laws are laws of one number and no
  fault is internal.
-/

namespace DiceCalculus

variable {ρ μ : Type}

/-! ## Calls with the shape of their arguments -/

/-- A call has the shape of its own arguments. -/
def Expr.HasOwnShape : Expr ρ → Prop
  | .call shape arguments => ∃ name, shape = arguments.shape name
  | _ => True

namespace Shape

/-- A keyword with a size is put into a list once. -/
lemma mem_insertKeyword {keyword : String} {size : Nat} {ks : List (String × Nat)}
    {k : String × Nat} : k ∈ insertKeyword keyword size ks ↔ k = (keyword, size) ∨ k ∈ ks := by
  induction ks with
  | nil => simp [insertKeyword]
  | cons k' ks ih =>
    unfold insertKeyword
    split
    · exact List.mem_cons
    · next h =>
      obtain ⟨hkeyword, hsize⟩ := Ordering.then_eq_eq.1 h
      have hk' : (keyword, size) = k' :=
        Prod.ext (Std.LawfulEqCmp.eq_of_compare hkeyword) (Std.LawfulEqCmp.eq_of_compare hsize)
      subst hk'
      simp
    · simp only [List.mem_cons, ih]
      tauto

/-- The keywords of a shape are those it is made of, in another order. -/
lemma mem_keywords_ofKeywords {name : String} {positional : Nat} {ks : List (String × Nat)}
    {k : String × Nat} : k ∈ (ofKeywords name positional ks).keywords ↔ k ∈ ks := by
  have hfold (done : List (String × Nat)) :
      k ∈ ks.foldl (fun ks k => insertKeyword k.1 k.2 ks) done ↔ k ∈ done ∨ k ∈ ks := by
    induction ks generalizing done with
    | nil => simp
    | cons k' ks ih =>
      rw [List.foldl_cons, ih, mem_insertKeyword, List.mem_cons]
      tauto
  exact (hfold []).trans (or_iff_right List.not_mem_nil)

end Shape

/-- A call with the shape of a built-in function has the arguments that this one asks for. -/
theorem Builtin.hasArguments_of_shape {b : Builtin} {name : String} {arguments : Slots (Expr ρ)}
    (h : b.shape = arguments.shape name) :
    b.HasArguments arguments.positional arguments.keywords := by
  constructor
  · have hpositional : 1 = arguments.positional.length := congrArg (·.positional) h
    exact List.ne_nil_of_length_pos (Nat.lt_of_lt_of_eq Nat.one_pos hpositional)
  · rintro rfl keyword hkeyword
    have hkeywords (k : String × Nat) : k ∈ [("then", 1), ("else", 1)] ↔
        k ∈ arguments.keywords.map fun g => (g.1, g.2.length) :=
      (@Shape.mem_keywords_ofKeywords Builtin.branch.name 1 _ k).symm.trans
        ((iff_of_eq (congrArg (k ∈ ·.keywords) h)).trans Shape.mem_keywords_ofKeywords)
    have hone : (keyword, 1) ∈ arguments.keywords.map fun g => (g.1, g.2.length) :=
      (hkeywords _).1 (by simpa using hkeyword)
    obtain ⟨g, hg, hgk⟩ := List.mem_map.1 hone
    obtain ⟨xs, hxs⟩ : ∃ xs, arguments.keywords.lookup keyword = some xs := by
      refine Option.ne_none_iff_exists'.1 fun hnone => ?_
      exact absurd (List.lookup_eq_none_iff.1 hnone g hg) (by simp [(Prod.mk.inj hgk).1])
    have hlength : (keyword, xs.length) ∈ [("then", 1), ("else", 1)] :=
      (hkeywords _).2 (List.mem_map.2 ⟨_, mem_of_lookup hxs, rfl⟩)
    obtain ⟨x, rfl⟩ : ∃ x, xs = [x] := by
      refine List.length_eq_one_iff.1 ?_
      simp only [List.mem_cons, Prod.mk.injEq, List.not_mem_nil, or_false] at hlength
      rcases hlength with h | h <;> exact h.2
    exact ⟨x, [], hxs⟩

variable [Scalar ρ]

/-! ## The promise -/

/-- The promise that all laws are laws of one number and that no fault is internal. -/
def Promise.ofNumbers : Promise ρ μ where
  limits _ := True
  binding b := b.HasLaws Law.IsOfNumbers
  law := Law.IsOfNumbers
  die l := l.IsOver fun _ => True
  fault := External
  excuse _ := False
  builtin shape b := b.shape = shape
  node := Expr.HasOwnShape

variable [Mass μ]

namespace Promise

omit [Mass μ] in
/-- A calculation that ensures a property under all limits. -/
lemma calculates_ofNumbers {α : Type} {c : Calculation ρ μ α} {Q : α → Prop}
    (h : ∀ limits, Ensures Q External (c.under limits)) : ofNumbers.Calculates c Q where
  ok {limits _} _ hc _ := by
    have hlimits := h limits
    rwa [hc] at hlimits
  error {limits _} _ hc := by
    have hlimits := h limits
    rwa [hc] at hlimits

/-- Calculations with laws of one number come to such laws. -/
theorem isSound_ofNumbers : (ofNumbers : Promise ρ μ).IsSound where
  external _ := id
  bound := id
  read hb _ := hb
  certain := Law.isOfNumbers_certain
  die hl e he := (hl e he).imp fun _ ha => ⟨trivial, ha.2⟩
  operate {op _ _} hl hl' := calculates_ofNumbers fun limits => by
    rw [Calculation.under_operate]
    exact Law.ensures_operate limits op hl hl'
  sum hl hl' := calculates_ofNumbers fun limits => by
    rw [Calculation.under_sum]
    exact Dice.ensures_law limits hl hl'
  dice hl hl' := calculates_ofNumbers fun limits => by
    rw [Calculation.under_dice]
    exact Dice.ensures_laws limits hl hl'
  maximum hls := calculates_ofNumbers fun limits => by
    rw [Calculation.under_maximum]
    exact Law.ensures_maximum limits hls
  branch _ hl hl' _ := (Law.isOver_empty.addPositive hl).addPositive hl'
  arguments hnode hb := by
    obtain ⟨name, rfl⟩ := hnode
    exact .inl (Builtin.hasArguments_of_shape hb)

end Promise

/-! ## Sessions -/

/-- An interaction in which calls have the shapes of their arguments, and which binds laws of one
number only. -/
def Interaction.IsOfNumbers : Interaction ρ μ → Prop
  | .operation (.request q) => q.expr.Every Expr.HasOwnShape
  | .operation (.bindGlobal _ b) => b.HasLaws Law.IsOfNumbers
  | .ask _ e => e.Every Expr.HasOwnShape

/-- An evaluation does not end for a fault that is internal. -/
def Stop.IsExternal : Stop ρ μ → Prop
  | .fault f => External f
  | .outOfFuel => True

/-- A predicate holds of every law in what is read and in what a built-in function answers. -/
def Observation.HasLaws (P : Law ρ μ → Prop) : Observation ρ μ → Prop
  | read _ b => b.HasLaws P
  | @answered _ _ _ m _ a => m.HasLaws P a
  | _ => True

namespace Promise

omit [Mass μ] in
/-- What a run may come to by the promise. -/
lemma ensures_of_allows_ofNumbers {α : Type} {Q : α → Prop} {x : Except (Stop ρ μ) α}
    (h : ofNumbers.Allows Q x) : Ensures Q Stop.IsExternal x := by
  obtain (f | _) | a := x
  · exact h
  · trivial
  · exact h

omit [Mass μ] in
/-- The promise can be kept in a new session. -/
lemma covers_start_ofNumbers (limits : Limits μ) :
    ofNumbers.Covers (.start limits : Session ρ μ) where
  limits := trivial
  bindings i name b hb := absurd hb (Frames.find?_initial_ne i name b)
  builtins h := by
    obtain ⟨b, hb, hshape⟩ := Registry.eq_builtin_and_shape_of_standard h
    cases hb
    exact hshape
  bodies h := absurd h (Registry.find?_standard_ne_user _ _)

variable {σ : Type} [Roller σ] {s : Session ρ μ}

/-- The promise can be kept after every interaction. -/
lemma Covers.after_ofNumbers (hs : ofNumbers.Covers s) {i : Interaction ρ μ} (hi : i.IsOfNumbers)
    (r : σ) : ofNumbers.Covers (i.after s r).1 := by
  cases i with
  | ask q e =>
    have hmet := isSound_ofNumbers.met_question q s.fuel hi hs r
    exact (q.session_traced e s r).symm ▸ (hmet fun _ _ => id).1
  | operation o =>
    cases o with
    | request q =>
      have hsession : (q.trace s r).session = (q.perform.play s r).2.1 :=
        congrArg (·.2.1) (q.outcome_trace s r)
      exact hsession ▸ (isSound_ofNumbers.met_request q hi hs r fun _ _ => id).1
    | bindGlobal name b => exact ((hs.inScope .global).assign name hi).inScope s.scope

/-- The promise can be kept after interactions in turn. -/
lemma Covers.afterAll_ofNumbers (hs : ofNumbers.Covers s) {is : List (Interaction ρ μ)}
    (his : ∀ i ∈ is, i.IsOfNumbers) (r : σ) : ofNumbers.Covers (s.afterAll is r).1 := by
  induction is generalizing s r with
  | nil => exact hs
  | cons i is ih =>
    rw [List.forall_mem_cons] at his
    exact ih (hs.after_ofNumbers his.1 r) his.2 _

end Promise

/-- In every session that can be reached, whatever the interactions before came to, if only laws of one
number were bound from outside and all calls have the shapes of their arguments: all variables of all
frames hold laws of one number only, and in whatever scope an expression is asked, and whatever a
session is asked, all laws in the answer are laws of one number, those of the components of a roll being
laws of one component; so are all laws that are read from variables and all that built-in functions
answer on the way. And nothing fails for an absent die, for an operator with other than two operands,
for an operand of a roll with several components, or for an argument that a built-in function misses. -/
theorem laws_are_of_numbers {σ : Type} [Roller σ] (limits : Limits μ) {is : List (Interaction ρ μ)}
    (his : ∀ i ∈ is, i.IsOfNumbers) (r₀ : σ) {s : Session ρ μ} {r : σ}
    (hs : (Session.start limits).afterAll is r₀ = (s, r)) :
    (∀ i name b, s.frames.find? i name = some b → b.HasLaws Law.IsOfNumbers) ∧
    (∀ (q : Question) (scope : Scope) (e : Expr ρ), e.Every Expr.HasOwnShape →
      Ensures (q.HasLaws Law.IsOfNumbers (Law.IsOver fun _ => True)) Stop.IsExternal
        ((e.ask q.of).play (s.inScope scope) r).1) ∧
    ∀ q : Request ρ, q.expr.Every Expr.HasOwnShape →
      Ensures (q.HasLaws Law.IsOfNumbers) Stop.IsExternal (q.perform.play s r).1 ∧
        ∀ o ∈ q.observed s r, o.HasLaws Law.IsOfNumbers := by
  have hcovers : Promise.ofNumbers.Covers s := by
    have hafter := (Promise.covers_start_ofNumbers limits).afterAll_ofNumbers his r₀
    rwa [hs] at hafter
  refine ⟨fun i => hcovers.bindings i, fun q scope e he => ?_, fun q hq => ?_⟩
  · obtain ⟨-, -, hallows⟩ :=
      Promise.isSound_ofNumbers.met_question q s.fuel he (hcovers.inScope scope) r fun _ _ => id
    have hresult := congrArg (·.1) (q.outcome_traced e (s.inScope scope) r)
    exact hresult ▸ Promise.ensures_of_allows_ofNumbers hallows
  · obtain ⟨-, hseen, hallows⟩ := Promise.isSound_ofNumbers.met_request q hq hcovers r fun _ _ => id
    have hresult := congrArg (·.1) (q.outcome_trace s r)
    refine ⟨hresult ▸ Promise.ensures_of_allows_ofNumbers hallows, fun o ho => ?_⟩
    have ho := hseen o ho
    cases o with
    | calculated c => trivial
    | read name b => exact ho
    | answered b a => exact ho
    | declared c => trivial

/-- A law is bound from outside, and dice are rolled whose number has that law. The second die may be
missing, and its law says so; the law of the maximum is a law of one number. -/
theorem laws_are_of_numbers_max :
    let roll : Expr (WithBot ℚ) := .dice (.var "d") (.literal (.int 2))
    let max : Expr (WithBot ℚ) := .ofCall "max" (.ofList [roll])
    let is : List (Interaction (WithBot ℚ) ℚ) := [.operation (.bindGlobal "d" (.law (.uniform 2)))]
    let s := ((Session.start ⟨none, some 1, none, 0⟩).afterAll is (⟨1, 1⟩ : Stepper)).1
    let r := ((Session.start ⟨none, some 1, none, 0⟩).afterAll is (⟨1, 1⟩ : Stepper)).2
    let face (i : Int32) : Outcome (WithBot ℚ) := .single (.number (.int i))
    (((roll.ask Question.laws.of).play s r).1.toOption.map (List.map Table.keys)) =
      some [[face 1, face 2], [.single .absent, face 1, face 2]] ∧
    ∃ l t r', (Session.distribution max).play s r = (.ok l, t, r') ∧ l.IsOfNumbers ∧
      ∀ o ∈ (Request.distribution max).observed s r, o.HasLaws Law.IsOfNumbers := by
  intro roll max is s r face
  have hmax : max.Every Expr.HasOwnShape := by
    have hshape : max.HasOwnShape := ⟨"max", rfl⟩
    simpa [max, roll, Expr.HasOwnShape] using hshape
  have his : ∀ i ∈ is, i.IsOfNumbers := List.forall_mem_singleton.2 (Law.isOfNumbers_uniform 2)
  obtain ⟨hensures, hobserved⟩ :=
    (laws_are_of_numbers (⟨none, some 1, none, 0⟩ : Limits ℚ) his (⟨1, 1⟩ : Stepper) (s := s) (r := r)
      rfl).2.2 (.distribution max) hmax
  have hlaws : (((roll.ask Question.laws.of).play s r).1.toOption.map (List.map Table.keys)) =
      some [[face 1, face 2], [.single .absent, face 1, face 2]] := by
    decide +kernel
  have hsome : ((Session.distribution max).play s r).1.toOption.isSome = true := by decide +kernel
  obtain ⟨l, hl⟩ := Except.exists_eq_ok_of_isSome hsome
  have hresult : ((Request.distribution max).perform.play s r).1 = .ok l := hl
  rw [hresult] at hensures
  exact ⟨hlaws, l, _, _, Prod.ext hl rfl, hensures, hobserved⟩

end DiceCalculus
