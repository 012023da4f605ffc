import DiceCalculus.Proofs.Certainty.Sessions

set_option autoImplicit false
set_option relaxedAutoImplicit false

/-!
# The forms of expressions without dice

From sessions that mirror each other, an expression that has a law can be sampled, without dice, and
the law is certain of the sample. For each form of expressions this follows from its parts.

## Main definitions

* `Run.Yields` — without dice, a computation comes to a result.
* `Run.Mirrors` — a computation that has a result among laws has one among values, and leaves the
  sessions mirroring each other.
* `Meaning.Mirrors` — so it is with all answers of an expression.

## Main results

* `Run.Mirrors.bind`, `Run.Mirrors.inFreshFrame`, `Run.Mirrors.activation` — computations in turn, in
  fresh frames and in calls.
* `Meaning.mirrors_binary` and its siblings — one statement for each form of expressions.
* `Expr.mirrors_meaning` — all expressions.

## Design

The two sides take the same steps, except that the law of an expression needs the limits and a sample
needs the number that a value is. `Run.Mirrors.skip` and `Run.Mirrors.calculate` are steps of one side
alone.
-/

namespace DiceCalculus

variable {ρ μ : Type} [Scalar ρ] {α β γ δ : Type}

namespace Run

/-! ## Computations without dice -/

/-- Without dice, a computation comes to a result and leaves a session. -/
def Yields (act : Run ρ μ α) (t : Session ρ μ) (a : α) (t' : Session ρ μ) : Prop :=
  act.exec t = .done (.ok a, t')

variable {act : Run ρ μ α} {f : α → Run ρ μ β} {t t₁ t' : Session ρ μ} {a : α} {b : β}

/-- One computation and then another. -/
lemma Yields.bind (h : act.Yields t a t₁) (hf : (f a).Yields t₁ b t') :
    (act >>= f).Yields t b t' := by
  unfold Yields
  rw [exec_bind, h, Sampler.done_bind]
  exact hf

/-- The result of a calculation. -/
lemma yields_ofExcept {x : Except (Fault ρ μ) α} (h : x = .ok a) : (ofExcept x).Yields t a t := by
  subst h
  rfl

/-- The binding of a name. -/
lemma yields_lookup {name : String} {b : Binding ρ μ}
    (h : t.frames.lookup? t.scope name = some b) : (lookup name).Yields t b t := by
  unfold Yields
  rw [exec_lookup, h]

/-- The function that is registered under a shape. -/
lemma yields_function {shape : Shape} {g : Function ρ} (h : t.registry.find? shape = some g) :
    (function shape).Yields t g t := by
  unfold Yields
  rw [exec_function, h]

/-- A computation in a fresh frame. -/
lemma Yields.inFreshFrame (h : act.Yields (t.enter t.scope) a t') :
    (inFreshFrame act).Yields t a (t'.inScope t.scope) := by
  unfold Yields
  rw [exec_inFreshFrame, h, Sampler.done_bind]

end Run

variable [Mass μ] {live : Nat → Prop} {allowed : Shape → Prop}

namespace Run

/-! ## Computations that mirror each other -/

/-- From sessions that mirror each other, a computation among values has a result if one among laws
has one, and the sessions go on to mirror each other. -/
def Mirrors (live : Nat → Prop) (allowed : Shape → Prop) (act : Run ρ μ α) (sample : Run ρ μ β)
    (P : α → β → Prop) : Prop :=
  ∀ ⦃s t⦄, Session.Mirrors live allowed s t → ∀ ⦃a s'⦄, act.Leads .any s (.ok a) s' →
    ∃ b t', sample.Yields t b t' ∧ P a b ∧ s'.Mirrors live allowed t'

variable {act : Run ρ μ α} {sample : Run ρ μ β} {P : α → β → Prop} {Q : γ → δ → Prop}
  {f : α → Run ρ μ γ} {g : β → Run ρ μ δ}

/-- Values that are given. -/
lemma mirrors_pure {a : α} {b : β} (h : P a b) :
    Mirrors live allowed (pure a : Run ρ μ α) (pure b) P := by
  intro s t hst a' s' ha
  obtain ⟨heq, rfl⟩ := leads_pure.1 ha
  obtain rfl := Except.ok.inj heq
  exact ⟨b, t, rfl, h, hst⟩

/-- A computation with laws that fails has no result. -/
lemma mirrors_fail (e : Fault ρ μ) (sample : Run ρ μ β) (P : α → β → Prop) :
    Mirrors live allowed (fail e) sample P := by
  intro s t _ a s' ha
  cases (leads_fail.1 ha).1

/-- A computation with laws that runs out of fuel has no result. -/
lemma mirrors_outOfFuel (sample : Run ρ μ β) (P : α → β → Prop) :
    Mirrors live allowed (throw .outOfFuel) sample P := by
  intro s t _ a s' ha
  cases (leads_throw.1 ha).1

/-- One computation and then another. -/
theorem Mirrors.bind (h : Mirrors live allowed act sample P)
    (hf : ∀ a b, P a b → Mirrors live allowed (f a) (g b) Q) :
    Mirrors live allowed (act >>= f) (sample >>= g) Q := by
  intro s t hst c s' hc
  obtain ⟨a, s₁, ha, hc⟩ := leads_bind_ok.1 hc
  obtain ⟨b, t₁, hb, hab, hst₁⟩ := h hst ha
  obtain ⟨d, t', hd, hcd, hst'⟩ := hf a b hab hst₁ hc
  exact ⟨d, t', hb.bind hd, hcd, hst'⟩

/-- A function of results. -/
lemma Mirrors.map {φ : α → γ} {ψ : β → δ} (h : Mirrors live allowed act sample P)
    (hQ : ∀ a b, P a b → Q (φ a) (ψ b)) :
    Mirrors live allowed (act >>= fun a => pure (φ a)) (sample >>= fun b => pure (ψ b)) Q :=
  h.bind fun a b hab => mirrors_pure (hQ a b hab)

/-- A weaker relation between the results. -/
lemma Mirrors.mono {P' : α → β → Prop} (h : Mirrors live allowed act sample P)
    (hP : ∀ a b, P a b → P' a b) : Mirrors live allowed act sample P' := by
  intro s t hst a s' ha
  obtain ⟨b, t', hb, hab, hst'⟩ := h hst ha
  exact ⟨b, t', hb, hP a b hab, hst'⟩

/-- A function of a result among values. -/
lemma Mirrors.map_right {ψ : β → δ} {P' : α → δ → Prop} (h : Mirrors live allowed act sample P)
    (hP : ∀ a b, P a b → P' a (ψ b)) :
    Mirrors live allowed act (sample >>= fun b => pure (ψ b)) P' := by
  intro s t hst a s' ha
  obtain ⟨b, t', hb, hab, hst'⟩ := h hst ha
  exact ⟨ψ b, t', hb.bind rfl, hP a b hab, hst'⟩

/-- A function of a result among laws. -/
lemma Mirrors.map_left {φ : α → γ} {P' : γ → β → Prop} (h : Mirrors live allowed act sample P)
    (hP : ∀ a b, P a b → P' (φ a) b) :
    Mirrors live allowed (act >>= fun a => pure (φ a)) sample P' := by
  intro s t hst c s' hc
  obtain ⟨a, ha, rfl⟩ := leads_bind_pure_ok.1 hc
  obtain ⟨b, t', hb, hab, hst'⟩ := h hst ha
  exact ⟨b, t', hb, hP a b hab, hst'⟩

/-- A step among laws that leaves the session as it is. -/
lemma Mirrors.skip {R : γ → β → Prop}
    (h : ∀ s a s', act.Leads .any s (.ok a) s' → s' = s ∧ Mirrors live allowed (f a) sample R) :
    Mirrors live allowed (act >>= f) sample R := by
  intro s t hst c s' hc
  obtain ⟨a, s₁, ha, hrest⟩ := leads_bind_ok.1 hc
  obtain ⟨rfl, hf⟩ := h s a s₁ ha
  exact hf hst hrest

/-- The limits of a session are needed among laws only. -/
lemma Mirrors.limits {f : Limits μ → Run ρ μ γ} {R : γ → β → Prop}
    (h : ∀ limits, Mirrors live allowed (f limits) sample R) :
    Mirrors live allowed (read (·.limits) >>= f) sample R := by
  refine .skip fun s limits s' hlimits => ?_
  obtain ⟨-, rfl⟩ := leads_read.1 hlimits
  exact ⟨rfl, h limits⟩

/-- A calculation among values that has a result. -/
lemma Mirrors.calculate {x : Except (Fault ρ μ) β} {b : β} {R : α → δ → Prop} (hx : x = .ok b)
    (h : Mirrors live allowed act (g b) R) : Mirrors live allowed act (ofExcept x >>= g) R := by
  intro s t hst a s' ha
  obtain ⟨d, t', hd, had, hst'⟩ := h hst ha
  exact ⟨d, t', (yields_ofExcept hx).bind hd, had, hst'⟩

/-- A calculation among laws ends what is mirrored if its results are. -/
lemma mirrors_ofExcept {x : Except (Fault ρ μ) α}
    (h : ∀ a, x = .ok a → Mirrors live allowed (pure a) sample P) :
    Mirrors live allowed (ofExcept x) sample P := by
  intro s t hst a s' ha
  obtain ⟨hx, rfl⟩ := leads_ofExcept_ok.1 ha
  exact h a hx hst (leads_pure.2 ⟨rfl, rfl⟩)

/-- Computations for every item of a list. -/
lemma Mirrors.mapM {xs : List γ} {f : γ → Run ρ μ α} {g : γ → Run ρ μ β}
    (h : ∀ x ∈ xs, Mirrors live allowed (f x) (g x) P) :
    Mirrors live allowed (xs.mapM f) (xs.mapM g) (List.Forall₂ P) := by
  induction xs with
  | nil => exact mirrors_pure .nil
  | cons x xs ih =>
    rw [List.forall_mem_cons] at h
    rw [List.mapM_cons, List.mapM_cons]
    exact h.1.bind fun a b hab => (ih h.2).map fun as bs habs => .cons hab habs

/-- The binding of a name. -/
lemma mirrors_lookup (name : String) :
    Mirrors live allowed (lookup (ρ := ρ) (μ := μ) name) (lookup name) Binding.Mirrors := by
  intro s t hst b s' hb
  obtain ⟨hfind, rfl⟩ := leads_lookup_ok.1 hb
  have hrel := hst.lookup? name
  rw [hfind] at hrel
  cases hfind' : t.frames.lookup? t.scope name with
  | none =>
    rw [hfind'] at hrel
    cases hrel
  | some b' =>
    rw [hfind'] at hrel
    cases hrel with
    | some hbb' => exact ⟨b', t, yields_lookup hfind', hbb', hst⟩

/-- A name that is bound. -/
lemma mirrors_assign (name : String) {b b' : Binding ρ μ} (hb : b.Mirrors b') :
    Mirrors live allowed (assign name b) (assign name b') fun _ _ => True := by
  intro s t hst u s' hu
  obtain ⟨-, rfl⟩ := leads_assign.1 hu
  exact ⟨(), _, exec_assign name b' t, trivial, hst.assign name hb⟩

/-- A function that is declared. -/
lemma mirrors_declare (signature : Signature) {body : List (Expr ρ)}
    (hbody : ∀ e ∈ body, e.Every (Expr.IsRollFree allowed)) :
    Mirrors live allowed (declare (μ := μ) signature body) (declare signature body)
      fun _ _ => True := by
  intro s t hst u s' hu
  rw [leads_declare] at hu
  have hexec := exec_declare signature body t
  cases hrepeated : signature.repeatedParameter? with
  | some name => 
    rw [hrepeated] at hu
    cases hu.1
  | none =>
    rw [hrepeated] at hu hexec
    obtain ⟨-, rfl⟩ := hu
    exact ⟨(), _, hexec, trivial, hst.declare signature hbody⟩

/-- A computation in a fresh frame. -/
theorem Mirrors.inFreshFrame (h : Mirrors live allowed act sample P) :
    Mirrors live allowed (inFreshFrame act) (inFreshFrame sample) P := by
  intro s t hst a s' ha
  obtain ⟨s₁, hact, rfl⟩ := leads_inFreshFrame.1 ha
  obtain ⟨b, t₁, hb, hab, hst₁⟩ := h (hst.enter hst.scope) hact
  refine ⟨b, t₁.inScope s.scope, ?_, hab, hst₁.inScope hst.scope⟩
  rw [← hst.scope_eq] at hb ⊢
  exact hb.inFreshFrame

/-- The activation of a function that was declared in a scope of live frames. -/
theorem Mirrors.activation (h : Mirrors live allowed act sample P) {scope : Scope}
    (hscope : ∀ i ∈ scope.chain, live i) {bs bs' : List (String × Binding ρ μ)}
    (hbs : List.Forall₂ (fun b b' => b.1 = b'.1 ∧ Binding.Mirrors b.2 b'.2) bs bs') :
    Mirrors live allowed
      (do
        let inner ← extend scope
        within inner (bs.forM fun b => assign b.1 b.2)
        activate inner act)
      (do
        let inner ← extend scope
        within inner (bs'.forM fun b => assign b.1 b.2)
        activate inner sample) P := by
  intro s t hst a s' ha
  have hexec := exec_activation scope bs' sample t
  rw [hst.limits, hst.depth] at hexec
  rw [leads_activation] at ha
  cases hdepth : s.limits.maxDepth.filter (· ≤ s.depth) with
  | some limit =>
    rw [hdepth] at ha
    cases ha.1
  | none =>
    rw [hdepth] at ha hexec
    obtain ⟨s₁, hact, rfl⟩ := ha
    have hinside := ((hst.enter hscope).assignAll hbs).down
    rw [Session.assignAll_scope, Session.assignAll_scope] at hinside
    obtain ⟨b, t₁, hb, hab, hst₁⟩ := h hinside hact
    refine ⟨b, t₁.up s.scope, ?_, hab, hst₁.up hst.scope⟩
    unfold Yields at hb ⊢
    rw [hexec, hb, Sampler.done_bind, hst.scope_eq]

end Run

/-! ## Meanings -/

/-- All answers of an expression as a law mirror its answers as a sample. -/
structure Meaning.Mirrors (live : Nat → Prop) (allowed : Shape → Prop) (x : Meaning ρ μ) : Prop where
  value : Run.Mirrors live allowed x.law x.value Law.Mirrors
  items : Run.Mirrors live allowed x.laws x.items Law.MirrorItems
  stored : Run.Mirrors live allowed (x.stored .exact) (x.stored .sample) Binding.Mirrors
  step : Run.Mirrors live allowed (x.step .exact) (x.step .sample) Flow.Mirrors

namespace Meaning

variable {x y : Meaning ρ μ} {xs : List (Meaning ρ μ)}

/-- An expression that is its own only component. -/
lemma mirrors_ofViews {value : Run ρ μ (Value ρ μ)} {law : Run ρ μ (Law ρ μ)}
    (h : Run.Mirrors live allowed law value Law.Mirrors) :
    (ofViews value law).Mirrors live allowed where
  value := h
  items := h.map fun l v hlv => by
    obtain ⟨x, rfl, hx⟩ := hlv
    exact ⟨[x], rfl, .cons hx .nil⟩
  stored := h.map fun l v hlv => by
    obtain ⟨x, rfl, hx⟩ := hlv
    exact .law hx
  step := h.map fun l v hlv => .next (.some hlv)

/-- A statement without value and law. -/
lemma mirrors_ofStatement (kind : Kind) {step : (m : Mode) → Run ρ μ (Flow (m.Answer ρ μ))}
    (h : Run.Mirrors live allowed (step .exact) (step .sample) Flow.Mirrors) :
    (ofStatement kind step).Mirrors live allowed := by
  exact
    { value := Run.mirrors_fail ..
      items := Run.mirrors_fail ..
      stored := Run.mirrors_fail ..
      step := h }

/-- An assignment. -/
lemma mirrors_assign (name : String) (hx : x.Mirrors live allowed) :
    (assign name x).Mirrors live allowed := by
  refine mirrors_ofStatement .assignment ?_
  refine hx.stored.bind fun b b' hbb' => ?_
  exact (Run.mirrors_assign name hbb').map fun _ _ _ => .next .none

/-- An output. -/
lemma mirrors_output (hx : x.Mirrors live allowed) : (output x).Mirrors live allowed :=
  mirrors_ofStatement .output (hx.value.map fun _ _ hlv => .ended hlv)

/-- A declaration. -/
lemma mirrors_declare (signature : Signature) {body : List (Expr ρ)}
    (hbody : ∀ e ∈ body, e.Every (Expr.IsRollFree allowed)) :
    (declare (μ := μ) signature body).Mirrors live allowed :=
  mirrors_ofStatement .declaration
    ((Run.mirrors_declare signature hbody).map fun _ _ _ => .next .none)

/-! ## Statement lists -/

section Statements

variable (hxs : ∀ x ∈ xs, x.Mirrors live allowed)

include hxs

/-- Statements in the current frame. -/
lemma mirrors_runFrom {last : Option (Law ρ μ)} {last' : Option (Value ρ μ)}
    (hlast : Option.Rel Law.Mirrors last last') :
    Run.Mirrors live allowed (runFrom .exact last xs) (runFrom .sample last' xs) Flow.Mirrors := by
  induction xs generalizing last last' with
  | nil => exact Run.mirrors_pure (.next hlast)
  | cons x xs ih =>
    rw [List.forall_mem_cons] at hxs
    refine hxs.1.step.bind fun f f' hff' => ?_
    cases hff' with
    | next h => exact ih hxs.2 h
    | ended h => exact Run.mirrors_pure (.ended h)

/-- The value of statements in the current frame. -/
lemma mirrors_resultOf :
    Run.Mirrors live allowed (resultOf .exact xs) (resultOf .sample xs) Law.Mirrors := by
  refine (mirrors_runFrom hxs .none).bind fun f f' hff' => ?_
  cases hff' with
  | next h =>
    cases h with
    | none => exact Run.mirrors_fail ..
    | some h => exact Run.mirrors_pure h
  | ended h => exact Run.mirrors_pure h

/-- A block. -/
lemma mirrors_block : (block xs).Mirrors live allowed :=
  { mirrors_ofViews (mirrors_resultOf hxs).inFreshFrame with
    step := (mirrors_runFrom hxs .none).inFreshFrame }

end Statements

/-! ## Numbers, operators, sequences and variables -/

section Numbers

variable (hμ : Mass.IsUnital μ)

include hμ

/-- A number. -/
lemma mirrors_literal (x : Number ρ) : (literal (μ := μ) x).Mirrors live allowed :=
  mirrors_ofViews (Run.mirrors_pure ⟨x, rfl, Law.isCertain_certain hμ x⟩)

/-- An operator between two expressions. -/
theorem mirrors_binary (op : Operator) (hx : x.Mirrors live allowed) (hy : y.Mirrors live allowed) :
    (binary op x y).Mirrors live allowed := by
  refine mirrors_ofViews (hx.value.bind fun l v hlv => ?_)
  obtain ⟨m, rfl, hm⟩ := hlv
  refine Run.Mirrors.calculate (b := m) rfl (hy.value.bind fun l' v' hlv' => ?_)
  obtain ⟨n, rfl, hn⟩ := hlv'
  refine Run.Mirrors.calculate (b := n) rfl ?_
  refine Run.Mirrors.limits fun limits => Run.mirrors_ofExcept fun d hd => ?_
  obtain ⟨z, hz, hdz⟩ := hm.operate hμ hn hd
  exact Run.Mirrors.calculate hz (Run.mirrors_pure ⟨z, rfl, hdz⟩)

/-- A variable. -/
lemma mirrors_var (name : String) : (var name : Meaning ρ μ).Mirrors live allowed := by
  have hread : Run.Mirrors live allowed (var name : Meaning ρ μ).law (var name).value Law.Mirrors :=
    (Run.mirrors_lookup name).bind fun b b' hbb' =>
      Run.mirrors_ofExcept fun l hl => Run.mirrors_pure (hbb'.toLaw hμ hl)
  have hvalue : Run.Mirrors live allowed (Run.lookup (μ := μ) (ρ := ρ) name) (var name).value
      fun b v => b.Mirrors (.value v) :=
    (Run.mirrors_lookup name).map_right fun b b' hbb' => hbb'.value_toValue
  refine { mirrors_ofViews hread with items := ?_, stored := ?_ }
  · exact (Run.mirrors_lookup name).bind fun b b' hbb' =>
      Run.mirrors_ofExcept fun ls hls => Run.mirrors_pure (hbb'.toLaws hμ hls)
  · exact hvalue.map_right fun b v hbv => hbv

omit hμ in
/-- A sequence. -/
lemma mirrors_sequence (hxs : ∀ x ∈ xs, x.Mirrors live allowed) :
    (sequence xs).Mirrors live allowed := by
  have hitems : Run.Mirrors live allowed (xs.mapM (·.law)) (xs.mapM (·.value))
      (List.Forall₂ Law.Mirrors) := .mapM fun x hx => (hxs x hx).value
  have hwhole : (ofViews (sequence xs).value (sequence xs).law).Mirrors live allowed :=
    mirrors_ofViews (Run.mirrors_fail ..)
  have hsequence : Run.Mirrors live allowed (xs.mapM (·.law)) (sequence xs).value
      fun ls v => ∃ vs, v = .sequence vs ∧ List.Forall₂ Law.Mirrors ls vs :=
    hitems.map_right fun ls vs h => ⟨vs, rfl, h⟩
  refine { hwhole with items := ?_, stored := ?_ }
  · exact hitems.mono fun _ _ h => Law.mirrorItems_of_forall₂ h
  · refine hsequence.map fun ls v h => ?_
    obtain ⟨vs, rfl, hlvs⟩ := h
    obtain ⟨ns, rfl, hns⟩ := Law.mirrorItems_of_forall₂ hlvs
    exact .laws hns

end Numbers

/-! ## Built-in functions -/

section Calls

variable (hμ : Mass.IsUnital μ) {args : Slots (Meaning ρ μ)}
  (hargs : ∀ x ∈ args.items, x.Mirrors live allowed)

/-- An argument is the same on both sides. -/
lemma mirrors_argument {read : Except (Fault ρ μ) (Meaning ρ μ)}
    (hread : ∀ x, read = .ok x → x.Mirrors live allowed) :
    Run.Mirrors live allowed (Run.ofExcept read) (Run.ofExcept read)
      fun x x' => x' = x ∧ x.Mirrors live allowed :=
  Run.mirrors_ofExcept fun x hx => by
    subst hx
    exact Run.mirrors_pure ⟨rfl, hread x rfl⟩

include hμ hargs

/-- The greatest item. -/
lemma mirrors_max :
    Run.Mirrors live allowed (Builtin.exact args .max) (Builtin.value args .max) Law.Mirrors := by
  refine (mirrors_argument fun x hx => hargs x (Slots.mem_items_of_nth hx)).bind fun x _ hx => ?_
  obtain ⟨rfl, hx⟩ := hx
  refine hx.items.bind fun ls vs hlvs => ?_
  obtain ⟨ns, rfl, hns⟩ := hlvs
  refine Run.Mirrors.limits fun limits => Run.mirrors_ofExcept fun d hd => ?_
  exact Run.Mirrors.calculate (Value.mapM_toNumber ns)
    (Run.mirrors_pure ⟨_, rfl, Law.isCertain_maximum hμ hns hd⟩)

/-- A branch that is certain to be chosen is a mixture by itself. -/
lemma mirrors_mixBranch_one {keyword : String} :
    Run.Mirrors live allowed (Builtin.mixBranch args keyword 1 .empty)
      (do (← Run.ofExcept (args.firstOf keyword)).value) Law.Mirrors := by
  unfold Builtin.mixBranch
  rw [if_pos hμ.isPositive_one]
  refine (mirrors_argument fun x hx => hargs x (Slots.mem_items_of_firstOf hx)).bind fun x _ hx => ?_
  obtain ⟨rfl, hx⟩ := hx
  exact hx.value.map_left fun l v hlv => by
    obtain ⟨n, rfl, hn⟩ := hlv
    exact ⟨n, rfl, hn.addScaled hμ⟩

omit hμ hargs in
/-- A branch that is certain not to be chosen adds nothing. -/
lemma mixBranch_of_not_isPositive {keyword : String} {chance : μ} (mixture : Law ρ μ)
    (h : Mass.isPositive chance = false) :
    Builtin.mixBranch args keyword chance mixture = pure mixture := by
  unfold Builtin.mixBranch
  rw [h]
  rfl

/-- The branch that a test chooses. -/
lemma mirrors_branch :
    Run.Mirrors live allowed (Builtin.exact args .branch) (Builtin.value args .branch)
      Law.Mirrors := by
  refine (mirrors_argument fun x hx => hargs x (Slots.mem_items_of_nth hx)).bind fun x _ hx => ?_
  obtain ⟨rfl, hx⟩ := hx
  refine hx.value.bind fun test v hv => ?_
  obtain ⟨n, rfl, hn⟩ := hv
  refine Run.Mirrors.calculate (b := n) rfl ?_
  rw [hn.chanceOfNonzero hμ, hn.massOf_zero]
  cases n.isZero with
  | true =>
    simp only [if_true]
    rw [mixBranch_of_not_isPositive _ hμ.isPositive_neutral]
    exact mirrors_mixBranch_one hμ hargs
  | false =>
    simp only [Bool.false_eq_true, if_false, mixBranch_of_not_isPositive _ hμ.isPositive_zero]
    exact (mirrors_mixBranch_one hμ hargs).map_left fun _ _ hlv => hlv

/-- A built-in function that does not take a law as a value. -/
lemma mirrors_builtin {b : Builtin} (hb : b ≠ .law) :
    Run.Mirrors live allowed (b.exact args) (b.value args) Law.Mirrors := by
  cases b with
  | max => exact mirrors_max hμ hargs
  | branch => exact mirrors_branch hμ hargs
  | law => exact absurd rfl hb

/-! ## Declared functions -/

omit hμ in
/-- What the parameters of a function hold. -/
lemma mirrors_closure_bind (signature : Signature) :
    Run.Mirrors live allowed (Closure.bind signature args .exact) (Closure.bind signature args .sample)
      (List.Forall₂ fun b b' => b.1 = b'.1 ∧ Binding.Mirrors b.2 b'.2) :=
  .mapM fun a ha => (hargs a.2 (Slots.mem_items_of_mem_zip ha)).stored.map fun _ _ hbb' => ⟨rfl, hbb'⟩

omit hμ hargs in
/-- Bodies without dice have laws that mirror their samples. -/
def MirrorBodies (live : Nat → Prop) (allowed : Shape → Prop) (enter : Enter ρ μ) : Prop :=
  ∀ body : List (Expr ρ), (∀ e ∈ body, e.Every (Expr.IsRollFree allowed)) →
    Run.Mirrors live allowed (enter body .exact) (enter body .sample) Law.Mirrors

variable {enter : Enter ρ μ} (henter : MirrorBodies live allowed enter)

include henter

omit hμ in
/-- The activation of a function. -/
lemma mirrors_activate {c : Closure ρ} (hscope : ∀ i ∈ c.scope.chain, live i)
    (hbody : ∀ e ∈ c.body, e.Every (Expr.IsRollFree allowed)) :
    Run.Mirrors live allowed (c.activate enter args .exact) (c.activate enter args .sample)
      Law.Mirrors :=
  (mirrors_closure_bind hargs c.signature).bind fun _ _ hbs =>
    (henter c.body hbody).activation hscope hbs

/-- A call of a function that does not take a law as a value. -/
lemma mirrors_call {shape : Shape} (hshape : allowed shape) :
    (call enter shape args).Mirrors live allowed := by
  refine mirrors_ofViews fun s t hst l s' hl => ?_
  obtain ⟨g, s₁, hg, hanswer⟩ := Run.leads_bind_ok.1 hl
  obtain ⟨hfind, rfl⟩ := Run.leads_function_ok.1 hg
  have hfind' : t.registry.find? shape = some g := hst.registry ▸ hfind
  have hmirrors : Run.Mirrors live allowed (g.answer enter args .exact)
      (g.answer enter args .sample) Law.Mirrors := by
    cases g with
    | builtin b =>
      exact mirrors_builtin hμ hargs fun hb => hst.laws shape hshape (hb ▸ hfind)
    | user c =>
      exact mirrors_activate hargs henter (hst.closures shape c hfind) (hst.bodies shape c hfind)
  obtain ⟨v, t', hv, hlv, hst'⟩ := hmirrors hst hanswer
  exact ⟨v, t', (Run.yields_function hfind').bind hv, hlv, hst'⟩

end Calls

end Meaning

/-! ## Expressions -/

namespace Expr

variable (hμ : Mass.IsUnital μ)

include hμ

/-- The law of an expression without dice mirrors its sample if that of bodies does. -/
lemma mirrors_denote {enter : Enter ρ μ} (henter : Meaning.MirrorBodies live allowed enter)
    {e : Expr ρ} (he : e.Every (IsRollFree allowed)) : (e.denote enter).Mirrors live allowed := by
  induction he with
  | @intro e hfree hparts ih =>
    have hmap {es : List (Expr ρ)} (hes : ∀ e ∈ es, (e.denote enter).Mirrors live allowed) :
        ∀ x ∈ es.map (denote enter), x.Mirrors live allowed := List.forall_mem_map.2 hes
    cases e with
    | literal x => exact Meaning.mirrors_literal hμ x
    | var name => exact Meaning.mirrors_var hμ name
    | binary op left right =>
      exact Meaning.mirrors_binary hμ op (ih left (by simp [parts])) (ih right (by simp [parts]))
    | dice count sides => exact hfree.elim
    | sequence es =>
      rw [denote, denoteAll_eq_map]
      exact Meaning.mirrors_sequence (hmap ih)
    | assign name e => exact Meaning.mirrors_assign name (ih e (by simp [parts]))
    | call shape arguments =>
      rw [denote_call]
      refine Meaning.mirrors_call hμ (fun x hx => ?_) henter hfree
      rw [Slots.items_map] at hx
      exact hmap ih x hx
    | block es =>
      rw [denote, denoteAll_eq_map]
      exact Meaning.mirrors_block (hmap ih)
    | output e => exact Meaning.mirrors_output (ih e (by simp [parts]))
    | declare signature body => exact Meaning.mirrors_declare signature hparts

/-- The law of an expression without dice mirrors its sample. -/
theorem mirrors_meaning (fuel : Nat) {e : Expr ρ} (he : e.Every (IsRollFree allowed)) :
    (e.meaning (μ := μ) fuel).Mirrors live allowed := by
  induction fuel generalizing e with
  | zero => exact mirrors_denote hμ (fun _ _ => Run.mirrors_outOfFuel ..) he
  | succ fuel ih =>
    refine mirrors_denote hμ (fun body hbody => ?_) he
    exact Meaning.mirrors_resultOf (List.forall_mem_map.2 fun e he => ih (hbody e he))

end Expr

end DiceCalculus
