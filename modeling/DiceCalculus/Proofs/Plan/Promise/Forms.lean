import DiceCalculus.Proofs.Plan.Promise

set_option autoImplicit false
set_option relaxedAutoImplicit false

/-!
# The expressions that keep a promise

A promise is kept by every expression that may be run if the calculations with laws keep it. Which
calculations there are does not depend on the promise.

## Main definitions

* `Promise.KeptBy` — all answers of an expression keep a promise.
* `Promise.IsSound` — the calculations with laws keep a promise.
* `Builtin.HasArguments` — a call has the arguments that a built-in function asks for.

## Main results

* `Promise.IsSound.keptBy_plans` — every expression that may be run keeps a sound promise.
* `Promise.IsSound.met_question`, `Promise.IsSound.met_request` — the runs of all answers meet it.
-/

namespace DiceCalculus

universe u v

variable {ρ μ : Type} [Scalar ρ] {σ α β : Type}

/-! ## Arguments -/

/-- The names of parameters are paired with arguments. -/
lemma PlannedSlots.mem_of_mem_zip {names : Slots String} {args : PlannedSlots ρ μ}
    {a : String × Plans ρ μ} (h : a ∈ zip names args) :
    a.2 ∈ args.positional ∨ ∃ g ∈ args.keywords, a.2 ∈ g.2 := by
  rcases List.mem_append.1 h with h | h
  · exact .inl (List.of_mem_zip h).2
  · obtain ⟨g, -, h⟩ := List.mem_flatMap.1 h
    split at h
    · next xs hxs => exact .inr ⟨_, mem_of_lookup hxs, (List.of_mem_zip h).2⟩
    · cases h

/-- A call has an argument by position, and if it chooses between branches it has one under both
keywords. -/
def Builtin.HasArguments {α : Type u} (b : Builtin) (positional : List α)
    (keywords : List (String × List α)) : Prop :=
  positional ≠ [] ∧ (b = .branch → ∀ keyword ∈ ["then", "else"],
    ∃ x xs, keywords.lookup keyword = some (x :: xs))

/-- A function of the arguments of a call changes nothing about which there are. -/
lemma Builtin.HasArguments.map {α : Type u} {β : Type v} {b : Builtin} {positional : List α}
    {keywords : List (String × List α)} (h : b.HasArguments positional keywords) (f : α → β) :
    b.HasArguments (positional.map f) (keywords.map fun g => (g.1, g.2.map f)) := by
  refine ⟨by simpa using h.1, fun hbranch keyword hkeyword => ?_⟩
  obtain ⟨x, xs, hx⟩ := h.2 hbranch keyword hkeyword
  exact ⟨f x, xs.map f, by rw [lookup_map (List.map f), hx]; rfl⟩

/-! ## Calculations that count nothing -/

section Faults

variable {F : Fault ρ μ → Prop} (hF : ∀ f, ¬f.IsInternal → F f)

include hF

/-- A value that is no number. -/
lemma Value.ensures_toNumber (v : Value ρ μ) : Ensures (fun _ => True) F v.toNumber := by
  cases v with
  | number x => trivial
  | sequence vs => exact hF _ id
  | law l => exact hF _ id

/-- Two numbers for which an operator has no value. -/
lemma Operator.ensures_apply (op : Operator) (x y : Number ρ) :
    Ensures (fun _ => True) F (op.apply x y) := by
  unfold apply
  split
  · trivial
  · exact hF _ id

/-- A number that is no number of dice. -/
lemma Dice.ensures_count (x : Number ρ) : Ensures (fun _ => True) F (count x) := by
  unfold count
  split
  · split
    · trivial
    · exact hF _ id
  · exact hF _ id

/-- A number that is no number of sides. -/
lemma Dice.ensures_sides (x : Number ρ) : Ensures (fun _ => True) F (sides x) := by
  unfold sides
  split
  · split
    · trivial
    · exact hF _ id
  · exact hF _ id

omit [Scalar ρ] in
/-- A list of statements that has no value. -/
lemma Flow.ensures_result {R : α → Prop} {flow : Flow α} (h : flow.Holds R) :
    Ensures R F (flow.result (ρ := ρ) (μ := μ)) := by
  rcases flow with (_ | a) | a
  · exact hF _ id
  · exact h a rfl
  · exact h

variable [Mass μ]

/-- A value that has no law. -/
lemma Value.ensures_toLaw (v : Value ρ μ) : Ensures (fun _ => True) F v.toLaw := by
  cases v with
  | number x => trivial
  | sequence vs => exact hF _ id
  | law l => trivial

/-- A binding that has no law. -/
lemma Binding.ensures_toLaw (b : Binding ρ μ) : Ensures (fun _ => True) F b.toLaw := by
  cases b with
  | value v => exact v.ensures_toLaw hF
  | law l => trivial
  | laws ls => exact hF _ id

/-- A binding with an item that has no law. -/
lemma Binding.ensures_toLaws (b : Binding ρ μ) : Ensures (fun _ => True) F b.toLaws := by
  cases b with
  | value v => exact (Ensures.mapM fun w _ => w.ensures_toLaw hF).mono (fun _ _ => trivial) fun _ => id
  | law l => trivial
  | laws ls => trivial

end Faults

namespace Promise

variable {P : Promise ρ μ} {m : Mode} {p : Part} {Q : α → Prop}

/-- A calculation that counts nothing keeps a promise by what it comes to. -/
lemma keeps_ofExcept {x : Except (Fault ρ μ) α} (hx : Ensures Q P.fault x) :
    P.Keeps (.ofExcept x : Plan ρ μ m p α) Q where
  ok _ h _ := by
    obtain rfl : x = .ok _ := h
    exact hx
  error _ h := by
    obtain rfl : x = .error _ := h
    exact hx

/-! ## Expressions that keep a promise -/

/-- All answers of an expression keep a promise. -/
structure KeptBy (P : Promise ρ μ) (x : Plans ρ μ) : Prop where
  value : P.Keeps x.value (Value.HasLaws P.law)
  items : P.Keeps x.items fun vs => ∀ v ∈ vs, v.HasLaws P.law
  law : P.Keeps x.law P.law
  laws : P.Keeps x.laws fun ls => ∀ l ∈ ls, P.die l
  stored : ∀ m, P.Keeps (x.stored m) (Binding.HasLaws P.law)
  step : ∀ m, P.Keeps (x.step m) (Flow.Holds (m.HasLaws P.law))

/-- The value or the law of an expression. -/
lemma KeptBy.answer {x : Plans ρ μ} (hx : P.KeptBy x) (m : Mode) :
    P.Keeps (x.answer m) (m.HasLaws P.law) := by
  cases m with
  | sample => exact hx.value
  | exact => exact hx.law

/-- An expression that is its own only component. -/
lemma keptBy_ofViews (hdie : ∀ {l}, P.law l → P.die l)
    {value : Plan ρ μ .sample .expression (Value ρ μ)} {law : Plan ρ μ .exact .expression (Law ρ μ)}
    (hvalue : P.Keeps value (Value.HasLaws P.law)) (hlaw : P.Keeps law P.law) :
    P.KeptBy (.ofViews value law) where
  value := hvalue
  items := hvalue.bind fun _ hv => List.forall_mem_singleton.2 hv
  law := hlaw
  laws := hlaw.bind fun _ hl => List.forall_mem_singleton.2 (hdie hl)
  stored
    | .sample => hvalue.bind fun _ hv => hv
    | .exact => hlaw.bind fun _ hl => hl
  step
    | .sample => hvalue.evaluate fun _ hv _ hw => Option.some_inj.1 hw ▸ hv
    | .exact => hlaw.evaluate fun _ hl _ hw => Option.some_inj.1 hw ▸ hl

/-- A list of statements. -/
lemma keeps_runFrom (m : Mode) {xs : List (Plans ρ μ)} (hxs : ∀ x ∈ xs, P.KeptBy x)
    {last : Option (m.Answer ρ μ)} (hlast : ∀ a, last = some a → m.HasLaws P.law a) :
    P.Keeps (Plans.runFrom m last xs) (Flow.Holds (m.HasLaws P.law)) := by
  induction xs generalizing last with
  | nil => exact hlast
  | cons x xs ih =>
    rw [List.forall_mem_cons] at hxs
    refine (hxs.1.step m).bind fun flow hflow => ?_
    cases flow with
    | next v => exact ih hxs.2 hflow
    | ended a => exact hflow

/-- A list of statements that starts anew. -/
lemma keeps_runAll (m : Mode) {xs : List (Plans ρ μ)} (hxs : ∀ x ∈ xs, P.KeptBy x) :
    P.Keeps (Plans.runAll m xs) (Flow.Holds (m.HasLaws P.law)) := by
  show P.Keeps (Plans.runFrom m none xs) _
  exact keeps_runFrom m hxs fun _ => nofun

section Arguments

variable {args : PlannedSlots ρ μ}

/-- An argument at a position. -/
lemma keeps_withNth (hargs : ∀ x ∈ args.positional, P.KeptBy x) (position : Nat)
    (hmissing : args.positional[position]? = none → P.fault (.missingPositional position))
    {next : Plans ρ μ → Plan ρ μ m p α} (hnext : ∀ x, P.KeptBy x → P.Keeps (next x) Q) :
    P.Keeps (args.withNth position next) Q := by
  unfold PlannedSlots.withNth
  split
  · next x hx => exact hnext x (hargs x (List.mem_of_getElem? hx))
  · next hnone => exact keeps_ofExcept (hmissing hnone)

/-- The first argument under a keyword. -/
lemma keeps_withFirst (hgroups : ∀ g ∈ args.keywords, ∀ x ∈ g.2, P.KeptBy x) (keyword : String)
    (hmissing : (∃ x xs, args.keywords.lookup keyword = some (x :: xs)) ∨
      P.fault (.missingKeyword keyword))
    {next : Plans ρ μ → Plan ρ μ m p α} (hnext : ∀ x, P.KeptBy x → P.Keeps (next x) Q) :
    P.Keeps (args.withFirst keyword next) Q := by
  unfold PlannedSlots.withFirst
  split
  · next x xs hx => exact hnext x (hgroups _ (mem_of_lookup hx) x List.mem_cons_self)
  · next hnone =>
    refine keeps_ofExcept (hmissing.resolve_left ?_)
    rintro ⟨x, xs, hx⟩
    exact hnone x xs hx

end Arguments

/-! ## Sound promises -/

variable [Mass μ]

/-- The calculations with laws keep a promise. -/
structure IsSound (P : Promise ρ μ) : Prop where
  /-- A run may fail for what a user wrote. -/
  external : ∀ f, ¬f.IsInternal → P.fault f
  bound : ∀ {b}, b.HasLaws P.law → P.binding b
  read : ∀ {name b}, P.binding b → ¬P.excuse (.read name b) → b.HasLaws P.law
  certain : ∀ x, P.law (.certain (.number x))
  die : ∀ {l}, P.law l → P.die l
  operate : ∀ {op l l'}, P.law l → P.law l' → P.Calculates (.operate op l l') P.law
  sum : ∀ {l l'}, P.law l → P.law l' → P.Calculates (.sum l l') P.law
  dice : ∀ {l l'}, P.law l → P.law l' → P.Calculates (.dice l l') fun ds => ∀ d ∈ ds, P.die d
  maximum : ∀ {ls}, (∀ l ∈ ls, P.die l) → P.Calculates (.maximum ls) P.law
  branch : ∀ {test l l'}, P.law test →
    (Mass.isPositive (Builtin.chanceOfNonzero test) = true → P.law l) →
    (Mass.isPositive (test.massOf (.number .zero)) = true → P.law l') →
    let d := Law.addPositive (Law.addPositive .empty (Builtin.chanceOfNonzero test) l)
      (test.massOf (.number .zero)) l'
    ¬P.excuse (.answered (m := .exact) .branch d) → P.law d
  /-- A call that reaches a built-in function has its arguments, unless it may fail for want of
  them. -/
  arguments : ∀ {shape es gs b}, P.node (.call shape ⟨es, gs⟩) → P.builtin shape b →
    b.HasArguments es gs ∨ ∀ f, P.fault f

namespace IsSound

variable (hP : P.IsSound)

include hP

/-- A statement without value and law. -/
lemma keptBy_ofStatement (kind : Kind)
    {step : (m : Mode) → Plan ρ μ m .statement (Flow (m.Answer ρ μ))}
    (hstep : ∀ m, P.Keeps (step m) (Flow.Holds (m.HasLaws P.law))) :
    P.KeptBy (.ofStatement kind step) := by
  have hevaluate : P.fault (.unsupported .evaluate (.expr kind)) := hP.external _ id
  have htake : P.fault (.unsupported .takeLaw (.expr kind)) := hP.external _ id
  exact
    { value := keeps_ofExcept hevaluate
      items := keeps_ofExcept hevaluate
      law := keeps_ofExcept htake
      laws := keeps_ofExcept htake
      stored
        | .sample => keeps_ofExcept hevaluate
        | .exact => keeps_ofExcept htake
      step := hstep }

/-- The number that an expression is sampled to. -/
lemma toNumber {x : Plans ρ μ} (hx : P.KeptBy x)
    {f : Number ρ → Plan ρ μ .sample .expression α} (hf : ∀ n, P.Keeps (f n) Q) :
    P.Keeps (do let n ← Plan.ofExcept (← x.value).toNumber; f n) Q :=
  hx.value.bind fun v _ => (keeps_ofExcept (v.ensures_toNumber hP.external)).bind fun n _ => hf n

/-! ### Expressions -/

/-- A number. -/
lemma keptBy_literal (x : Number ρ) : P.KeptBy (.literal x) :=
  keptBy_ofViews hP.die (.number x) (hP.certain x)

/-- An operator between two expressions. -/
lemma keptBy_binary (op : Operator) {x y : Plans ρ μ} (hx : P.KeptBy x) (hy : P.KeptBy y) :
    P.KeptBy (.binary op x y) := by
  refine keptBy_ofViews hP.die ?_ ?_
  · refine hP.toNumber hx fun m => hP.toNumber hy fun n => ?_
    exact (keeps_ofExcept (op.ensures_apply hP.external m n)).bind fun z _ => .number z
  · exact hx.law.bind fun l hl => hy.law.bind fun l' hl' => hP.operate hl hl'

/-- The faces of a roll. -/
lemma keeps_faces {count sides : Plans ρ μ} (hcount : P.KeptBy count) (hsides : P.KeptBy sides) :
    P.Keeps (Plans.faces count sides) fun _ => True := by
  refine hP.toNumber hsides fun y => ?_
  refine (keeps_ofExcept (Dice.ensures_sides hP.external y)).bind fun m _ => ?_
  refine hP.toNumber hcount fun x => ?_
  exact (keeps_ofExcept (Dice.ensures_count hP.external x)).bind fun n _ faces => trivial

/-- A roll. -/
lemma keptBy_dice {count sides : Plans ρ μ} (hcount : P.KeptBy count) (hsides : P.KeptBy sides) :
    P.KeptBy (.dice count sides) := by
  have hfaces := hP.keeps_faces hcount hsides
  have hvalue : P.Keeps (do return .number ((← Plans.faces count sides).foldl (· + ·) .zero))
      (Value.HasLaws P.law) := hfaces.bind fun xs _ => Value.HasLaws.number _
  have hlaw : P.Keeps (do .ofCalculation (.sum (← count.law) (← sides.law))) P.law :=
    hcount.law.bind fun l hl => hsides.law.bind fun l' hl' => hP.sum hl hl'
  exact
    { keptBy_ofViews hP.die hvalue hlaw with
      items := hfaces.bind fun xs _ => List.forall_mem_map.2 fun x _ => .number x
      laws := hcount.law.bind fun l hl => hsides.law.bind fun l' hl' => hP.dice hl hl' }

/-- A sequence. -/
lemma keptBy_sequence {xs : List (Plans ρ μ)} (hxs : ∀ x ∈ xs, P.KeptBy x) :
    P.KeptBy (.sequence xs) := by
  have hitems : P.Keeps (.each (·.value) xs) fun vs => ∀ v ∈ vs, v.HasLaws P.law :=
    .each fun x hx => (hxs x hx).value
  have hlaws : P.Keeps (.each (·.law) xs) fun ls => ∀ l ∈ ls, P.law l :=
    .each fun x hx => (hxs x hx).law
  have hvalue : P.Keeps (do return .sequence (← Plan.each (·.value) xs)) (Value.HasLaws P.law) :=
    hitems.bind fun vs hvs => Value.HasLaws.sequence hvs
  have hlaw : P.Keeps (.fail (.unsupported .takeLaw (.expr .sequence)) :
      Plan ρ μ .exact .expression (Law ρ μ)) P.law :=
    keeps_ofExcept (x := .error _) (hP.external _ id)
  have hwhole := keptBy_ofViews hP.die hvalue hlaw
  exact
    { hwhole with
      items := hitems
      laws := hlaws.mono fun ls hls l hl => hP.die (hls l hl)
      stored
        | .sample => hwhole.stored .sample
        | .exact => hlaws.bind fun ls hls => hls }

/-- A variable. -/
lemma keptBy_var (name : String) : P.KeptBy (.var name) := by
  have hvalue : P.Keeps (.lookup name fun b => pure b.toValue : Plan ρ μ .sample .expression _)
      (Value.HasLaws P.law) := fun b hb he => (hP.read hb he).toValue
  have hlaw : P.Keeps (.lookup name fun b => .ofExcept b.toLaw : Plan ρ μ .exact .expression _)
      P.law := fun b hb he => keeps_ofExcept ((b.ensures_toLaw hP.external).of_ok fun _ =>
        (hP.read hb he).toLaw hP.certain)
  have hwhole := keptBy_ofViews hP.die hvalue hlaw
  exact
    { hwhole with
      items := fun b hb he => (hP.read hb he).items
      laws := fun b hb he => keeps_ofExcept ((b.ensures_toLaws hP.external).of_ok fun ls hls l hl =>
        hP.die ((hP.read hb he).toLaws hP.certain hls l hl))
      stored
        | .sample => hwhole.stored .sample
        | .exact => fun b hb he => hP.read hb he }

/-! ### Statements -/

/-- An assignment. -/
lemma keptBy_assign (name : String) {x : Plans ρ μ} (hx : P.KeptBy x) : P.KeptBy (.assign name x) :=
  hP.keptBy_ofStatement .assignment fun m =>
    (hx.stored m).evaluate fun _ hb => ⟨hP.bound hb, fun _ => nofun⟩

/-- An output. -/
lemma keptBy_output {x : Plans ρ μ} (hx : P.KeptBy x) : P.KeptBy (.output x) :=
  hP.keptBy_ofStatement .output fun m => (hx.answer m).evaluate fun _ ha => ha

/-- A declaration. -/
lemma keptBy_declare {signature : Signature} {body : List (Expr ρ)}
    (h : (Expr.declare signature body).Every P.node) : P.KeptBy (.declare signature body) :=
  hP.keptBy_ofStatement .declaration fun _ => ⟨h, fun _ => nofun⟩

/-- The value of a list of statements. -/
lemma keeps_resultOf (m : Mode) {xs : List (Plans ρ μ)} (hxs : ∀ x ∈ xs, P.KeptBy x) :
    P.Keeps (Plans.resultOf m xs) (m.HasLaws P.law) :=
  (keeps_runAll m hxs).bind fun _ hflow => keeps_ofExcept (Flow.ensures_result hP.external hflow)

/-- A block. -/
lemma keptBy_block {xs : List (Plans ρ μ)} (hxs : ∀ x ∈ xs, P.KeptBy x) : P.KeptBy (.block xs) :=
  { keptBy_ofViews hP.die
      (Keeps.frame (f := .done) (hP.keeps_resultOf .sample hxs) fun _ hv => hv)
      (Keeps.frame (f := .done) (hP.keeps_resultOf .exact hxs) fun _ hl => hl) with
    step := fun m => Keeps.frame (f := .done) (keeps_runAll m hxs) fun _ hflow => hflow }

/-! ### Calls -/

section Calls

variable {args : PlannedSlots ρ μ} (hargs : ∀ x ∈ args.positional, P.KeptBy x)
  (hgroups : ∀ g ∈ args.keywords, ∀ x ∈ g.2, P.KeptBy x)

include hargs hgroups

/-- What the parameters of a function hold. -/
lemma keeps_bind (m : Mode) (signature : Signature) :
    P.Keeps (args.bind m signature) fun bs => ∀ b ∈ bs, P.binding b.2 := by
  refine Keeps.each (Q := fun b : String × Binding ρ μ => P.binding b.2) fun a ha => ?_
  have hx : P.KeptBy a.2 := by
    rcases PlannedSlots.mem_of_mem_zip ha with h | ⟨g, hg, h⟩
    · exact hargs _ h
    · exact hgroups g hg _ h
  exact (hx.stored m).bind fun b hb => hP.bound hb

omit hP hargs in
/-- A branch of a mixture. -/
lemma keeps_mixBranch (keyword : String) (chance : μ) (mixture : Law ρ μ)
    (hmissing : (∃ x xs, args.keywords.lookup keyword = some (x :: xs)) ∨
      P.fault (.missingKeyword keyword)) :
    P.Keeps (args.mixBranch keyword chance mixture) fun d =>
      ∃ l, (Mass.isPositive chance = true → P.law l) ∧ d = mixture.addPositive chance l := by
  unfold PlannedSlots.mixBranch Law.addPositive
  split
  · refine keeps_withFirst hgroups keyword hmissing fun x hx => hx.law.bind fun l hl => ?_
    exact ⟨l, fun _ => hl, rfl⟩
  · next hchance => exact ⟨.empty, fun h => absurd h hchance, rfl⟩

/-- A built-in function that has its arguments, unless it may fail for want of them.

**Proof sketch.** By the function and the mode. Each asks for its arguments first, which are there
or whose absence is a fault that is promised. What it then does with them is a step of the promise:
numbers are taken out of values, a maximum is computed, the branches of a test are mixed, or the law
is passed on. -/
lemma keeps_answer (b : Builtin) (hb : b.HasArguments args.positional args.keywords ∨
      ∀ f, P.fault f) (m : Mode) :
    P.Keeps (args.answer b m) fun a => ¬P.excuse (.answered b a) → m.HasLaws P.law a := by
  have hnth : args.positional[0]? = none → P.fault (.missingPositional 0) := by
    intro hnone
    rcases hb with ⟨hne, -⟩ | hb
    · exact absurd (List.eq_nil_of_length_eq_zero
        (Nat.le_zero.1 (List.getElem?_eq_none_iff.1 hnone))) hne
    · exact hb _
  have hfirst (hbranch : b = .branch) (keyword : String) (hkeyword : keyword ∈ ["then", "else"]) :
      (∃ x xs, args.keywords.lookup keyword = some (x :: xs)) ∨ P.fault (.missingKeyword keyword) :=
    hb.imp (fun hb => hb.2 hbranch keyword hkeyword) fun hb => hb _
  cases m with
  | sample =>
    cases b with
    | max =>
      refine keeps_withNth hargs 0 hnth fun x hx => hx.items.bind fun vs _ => ?_
      have hnumbers := Ensures.mapM fun v (_ : v ∈ vs) => v.ensures_toNumber hP.external
      exact (keeps_ofExcept hnumbers).bind fun xs _ _ => Value.HasLaws.number _
    | branch =>
      refine keeps_withNth hargs 0 hnth fun x hx => hP.toNumber hx fun test => ?_
      refine keeps_withFirst hgroups _ (hfirst rfl _ ?_) fun y hy => hy.value.mono fun v hv _ => hv
      split <;> simp
    | law =>
      exact keeps_withNth hargs 0 hnth fun x hx => hx.law.exact fun l hl _ => Value.HasLaws.law hl
  | exact =>
    cases b with
    | max =>
      refine keeps_withNth hargs 0 hnth fun x hx => hx.laws.bind fun ls hls => ?_
      exact (hP.maximum hls).mono fun d hd _ => hd
    | branch =>
      refine keeps_withNth hargs 0 hnth fun x hx => hx.law.bind fun test htest => ?_
      refine (keeps_mixBranch hgroups "then" _ _ (hfirst rfl _ (by simp))).bind ?_
      rintro mixture ⟨l, hl, rfl⟩
      refine (keeps_mixBranch hgroups "else" _ _ (hfirst rfl _ (by simp))).mono ?_
      rintro d ⟨l', hl', rfl⟩
      exact hP.branch htest hl hl'
    | law => exact keeps_withNth hargs 0 hnth fun x hx => hx.law.mono fun l hl _ => hl

/-- A call. -/
lemma keptBy_call (shape : Shape) (hb : ∀ b, P.builtin shape b →
    b.HasArguments args.positional args.keywords ∨ ∀ f, P.fault f) : P.KeptBy (.call shape args) := by
  have hcall (m : Mode) :
      P.Keeps (.call shape (args.answer · m) (args.bind m) .done) (m.HasLaws P.law) :=
    .call (fun b hbuiltin => hP.keeps_answer hargs hgroups b (hb b hbuiltin) m)
      (hP.keeps_bind hargs hgroups m)
  exact keptBy_ofViews hP.die (hcall .sample) (hcall .exact)

end Calls

/-- Every expression that may be run keeps a sound promise. -/
theorem keptBy_plans {e : Expr ρ} (he : e.Every P.node) : P.KeptBy e.plans := by
  induction he with
  | @intro e hnode hparts ih =>
    have hmap {es : List (Expr ρ)} (hes : ∀ e ∈ es, P.KeptBy e.plans) :
        ∀ x ∈ es.map Expr.plans, P.KeptBy x := List.forall_mem_map.2 hes
    cases e with
    | literal x => exact hP.keptBy_literal x
    | var name => exact hP.keptBy_var name
    | binary op left right =>
      exact hP.keptBy_binary op (ih left (by simp [Expr.parts])) (ih right (by simp [Expr.parts]))
    | dice count sides =>
      exact hP.keptBy_dice (ih count (by simp [Expr.parts])) (ih sides (by simp [Expr.parts]))
    | sequence es =>
      rw [Expr.plans, Expr.plansAll_eq_map]
      exact hP.keptBy_sequence (hmap ih)
    | assign name e => exact hP.keptBy_assign name (ih e (by simp [Expr.parts]))
    | block es =>
      rw [Expr.plans, Expr.plansAll_eq_map]
      exact hP.keptBy_block (hmap ih)
    | output e => exact hP.keptBy_output (ih e (by simp [Expr.parts]))
    | declare signature body => exact hP.keptBy_declare (.intro hnode hparts)
    | call shape arguments =>
      obtain ⟨es, gs⟩ := arguments
      rw [Expr.plans, Expr.plansAll_eq_map, Expr.plansGroups_eq_map]
      refine hP.keptBy_call (hmap fun e he => ih e (List.mem_append_left _ he)) ?_ shape
        fun b hb => (hP.arguments hnode hb).imp_left fun h => h.map Expr.plans
      refine List.forall_mem_map.2 fun g hg => hmap fun e he => ih e ?_
      exact List.mem_append_right _ (List.mem_flatMap.2 ⟨g, hg, he⟩)

/-! ## Runs -/

variable [Roller σ] {s : Session ρ μ}

/-- The run of a body meets a sound promise, with any amount of fuel. -/
lemma met_traceBody (fuel : Nat) {es : List (Expr ρ)} (m : Mode) (r : σ)
    (hes : ∀ e ∈ es, e.Every P.node) (hs : P.Covers s) :
    P.Met (Plan.traceBody fuel es m s r) (Plan.observedBody fuel es m s r) (m.HasLaws P.law) := by
  induction fuel generalizing es m s r with
  | zero => exact met_nil hs trivial
  | succ fuel ih =>
    have hbody : P.Keeps (Plan.ofBody es m) (m.HasLaws P.law) := by
      unfold Plan.ofBody
      rw [Expr.plansAll_eq_map]
      exact hP.keeps_resultOf m (List.forall_mem_map.2 fun e he => hP.keptBy_plans (hes e he))
    exact met_trace hP.external (fun m r hes hs => ih m r hes hs) hbody hs r

/-- The run of a plan that keeps a sound promise meets it, with any amount of fuel. -/
lemma met_trace (fuel : Nat) {x : Plan ρ μ m p α} (hx : P.Keeps x Q) (hs : P.Covers s) (r : σ) :
    P.Met (x.trace (Plan.traceBody fuel) s r)
      (x.observed (Plan.traceBody fuel) (Plan.observedBody fuel) s r) Q :=
  Promise.met_trace hP.external (fun m r hes hs => hP.met_traceBody fuel m r hes hs) hx hs r

end IsSound

end Promise

/-! ## What is asked -/

/-- A predicate holds of every law in an answer of an expression, and another one of the laws of its
components. -/
def Question.HasLaws (P D : Law ρ μ → Prop) : (q : Question) → q.Answer ρ μ → Prop
  | value, v => v.HasLaws P
  | items, vs => ∀ v ∈ vs, v.HasLaws P
  | law, l => P l
  | laws, ls => ∀ l ∈ ls, D l
  | stored _, b => b.HasLaws P
  | step m, flow => flow.Holds (m.HasLaws P)

namespace Request

/-- The expression or statement that a session is asked about. -/
def expr : Request ρ → Expr ρ
  | evaluate e | distribution e | run e => e

/-- A predicate holds of every law in an answer of a session. -/
def HasLaws (P : Law ρ μ → Prop) : (q : Request ρ) → q.Answer μ → Prop
  | evaluate _, v => v.HasLaws P
  | distribution _, l => P l
  | run _, v => ∀ a, v = some a → a.HasLaws P

end Request

namespace Promise.IsSound

variable {P : Promise ρ μ} [Mass μ] [Roller σ] {s : Session ρ μ} (hP : P.IsSound)

include hP

/-- The run of an answer of an expression meets a sound promise, with any amount of fuel. -/
theorem met_question (q : Question) (fuel : Nat) {e : Expr ρ} (he : e.Every P.node) (hs : P.Covers s)
    (r : σ) : P.Met ((q.plan e.plans).trace (Plan.traceBody fuel) s r)
      ((q.plan e.plans).observed (Plan.traceBody fuel) (Plan.observedBody fuel) s r)
      (q.HasLaws P.law P.die) := by
  have hkept := hP.keptBy_plans he
  cases q with
  | value => exact hP.met_trace fuel hkept.value hs r
  | items => exact hP.met_trace fuel hkept.items hs r
  | law => exact hP.met_trace fuel hkept.law hs r
  | laws => exact hP.met_trace fuel hkept.laws hs r
  | stored m => exact hP.met_trace fuel (hkept.stored m) hs r
  | step m => exact hP.met_trace fuel (hkept.step m) hs r

/-- The run of an answer of a session meets a sound promise. -/
theorem met_request (q : Request ρ) (hq : q.expr.Every P.node) (hs : P.Covers s) (r : σ) :
    P.Met (q.trace s r) (q.observed s r) (q.HasLaws P.law) := by
  cases q with
  | evaluate e => exact hP.met_question .value _ hq hs.renewed r
  | distribution e =>
    have hlaw := hP.met_question .law s.renewed.fuel hq hs.renewed r
    refine hlaw.andThen_nil (f := Trace.checked) (R := P.law) fun l t r ht hl => met_nil ht ?_
    unfold Trace.checked Session.checked
    split
    · exact hl
    · exact hP.external _ id
  | run e =>
    exact (hP.met_question (.step .sample) _ hq (hs.renewed.inScope .global) r).settle s.scope

end Promise.IsSound

end DiceCalculus
