import DiceCalculus.Proofs.Expr.Parts
import DiceCalculus.Proofs.Faults
import DiceCalculus.Proofs.Run.Exec

set_option autoImplicit false
set_option relaxedAutoImplicit false

/-!
# Contracts of an evaluation

An invariant of an evaluation is a statement about every step of every expression. Which steps
there are does not depend on the invariant. A contract says what is kept; if the few primitive
steps keep it, every answer of every expression does.

## Main definitions

* `Value.HasLaws`, `Binding.HasLaws`, `Mode.HasLaws` — a predicate that holds of every law in a
  value, a binding or an answer.
* `Contract` — what an evaluation keeps: an invariant of the session, how the session may differ
  afterwards, and what holds of the laws that are computed.
* `Contract.Meets` — a computation that keeps a contract.
* `Contract.IsSound` — the primitive steps keep the contract.
* `Contract.Covers` — all answers of an expression keep the contract.

## Main results

* `Contract.meets_bind`, `Contract.meets_mapM` — computations in turn.
* `Contract.covers_meaning` — every expression keeps a sound contract.

## Design

An expression that is evaluated for its answer may change less of a session than a statement:
only a statement binds variables in the frame in which it is run. A contract therefore has two
relations between the session before and the session after.
-/

namespace DiceCalculus

variable {ρ μ : Type} [Scalar ρ]

/-! ## Laws in values and bindings -/

/-- A predicate holds of every law in a value. -/
inductive Value.HasLaws (P : Law ρ μ → Prop) : Value ρ μ → Prop where
  | number (x : Number ρ) : HasLaws P (.number x)
  | sequence {vs : List (Value ρ μ)} (h : ∀ v ∈ vs, HasLaws P v) : HasLaws P (.sequence vs)
  | law {l : Law ρ μ} (h : P l) : HasLaws P (.law l)

/-- A predicate holds of every law in a binding. -/
def Binding.HasLaws (P : Law ρ μ → Prop) : Binding ρ μ → Prop
  | value v => v.HasLaws P
  | law l => P l
  | laws ls => ∀ l ∈ ls, P l

/-- A predicate holds of the law, or of every law in the value, of an expression. -/
def Mode.HasLaws (P : Law ρ μ → Prop) : (m : Mode) → m.Answer ρ μ → Prop
  | .sample => Value.HasLaws P
  | .exact => P

/-- A predicate holds of the value that a statement hands over, if there is one. -/
def Flow.Holds {α : Type} (P : α → Prop) : Flow α → Prop
  | .next v => ∀ a, v = some a → P a
  | .ended a => P a

section HasLaws

variable {P : Law ρ μ → Prop}

/-- The laws in the items of a value are among those in the value. -/
lemma Value.HasLaws.items {v : Value ρ μ} (h : v.HasLaws P) : ∀ w ∈ v.items, w.HasLaws P := by
  cases h with
  | number x => exact List.forall_mem_singleton.2 (.number x)
  | sequence h => exact h
  | law h => exact List.forall_mem_singleton.2 (.law h)

/-- The laws in the value of a binding are those in the binding. -/
lemma Binding.HasLaws.toValue {b : Binding ρ μ} (h : b.HasLaws P) : b.toValue.HasLaws P := by
  cases b with
  | value v => exact h
  | law l => exact .law h
  | laws ls => exact .sequence (List.forall_mem_map.2 fun l hl => .law (h l hl))

/-- The laws in the items of a binding are those in the binding. -/
lemma Binding.HasLaws.items {b : Binding ρ μ} (h : b.HasLaws P) :
    ∀ v ∈ b.items, v.HasLaws P := by
  cases b with
  | value v => exact Value.HasLaws.items h
  | law l => exact List.forall_mem_singleton.2 (.law h)
  | laws ls => exact List.forall_mem_map.2 fun l hl => .law (h l hl)

variable [Mass μ]

/-- The law of a value is one of its laws, or that of a constant. -/
lemma Value.HasLaws.toLaw (hcertain : ∀ x, P (.certain (.number x))) {v : Value ρ μ}
    (h : v.HasLaws P) {l : Law ρ μ} (hl : v.toLaw = .ok l) : P l := by
  cases h with
  | number x => exact Except.ok.inj hl ▸ hcertain x
  | sequence h => cases hl
  | law h => exact Except.ok.inj hl ▸ h

/-- The law of a binding is one of its laws, or that of a constant. -/
lemma Binding.HasLaws.toLaw (hcertain : ∀ x, P (.certain (.number x))) {b : Binding ρ μ}
    (h : b.HasLaws P) {l : Law ρ μ} (hl : b.toLaw = .ok l) : P l := by
  cases b with
  | value v => exact Value.HasLaws.toLaw hcertain h hl
  | law l' => exact Except.ok.inj hl ▸ h
  | laws ls => cases hl

/-- The laws of the items of a binding are among its laws, or those of constants. -/
lemma Binding.HasLaws.toLaws (hcertain : ∀ x, P (.certain (.number x))) {b : Binding ρ μ}
    (h : b.HasLaws P) {ls : List (Law ρ μ)} (hls : b.toLaws = .ok ls) : ∀ l ∈ ls, P l := by
  cases b with
  | value v =>
    intro l hl
    obtain ⟨w, hw, hwl⟩ := Except.exists_of_mem_mapM hls l hl
    exact (Value.HasLaws.items h w hw).toLaw hcertain hwl
  | law l' =>
    obtain rfl := Except.ok.inj hls
    exact List.forall_mem_singleton.2 h
  | laws ls' => exact Except.ok.inj hls ▸ h

end HasLaws

/-! ## Contracts -/

/-- A law with another added to it, weighted by a mass, if that mass is above zero. -/
def Law.addPositive [Mass μ] (target : Law ρ μ) (weight : μ) (l : Law ρ μ) : Law ρ μ :=
  if Mass.isPositive weight then target.addScaled weight l else target

/-- What is run: an expression for its answer, or a statement for its effect. -/
inductive Part where
  | expression
  | statement

/-- What an evaluation keeps. -/
structure Contract (ρ μ : Type) [Scalar ρ] where
  /-- How requests for dice are answered. -/
  answers : Answers
  /-- What holds of a session at all times. -/
  inv : Session ρ μ → Prop
  /-- In which scopes something may be run from a session. -/
  usable : Session ρ μ → Scope → Prop
  /-- How a session may differ after an expression or a statement. -/
  after : Part → Session ρ μ → Session ρ μ → Prop
  /-- What holds of every law of an expression. -/
  law : Law ρ μ → Prop
  /-- What holds of every law of a die of a roll. -/
  die : Law ρ μ → Prop
  /-- Why an evaluation may end without a result. -/
  stop : Stop ρ μ → Prop
  /-- The expressions that may be run. -/
  node : Expr ρ → Prop

namespace Contract

variable {α β : Type} (c : Contract ρ μ)

/-- A result, or a reason for having none, that a contract allows. -/
def Allows (Q : α → Prop) : Except (Stop ρ μ) α → Prop
  | .ok a => Q a
  | .error e => c.stop e

/-- From a session, a computation keeps a contract and has results with a property. -/
def MeetsAt (p : Part) (s : Session ρ μ) (act : Run ρ μ α) (Q : α → Prop) : Prop :=
  ∀ r s', act.Leads c.answers s r s' → c.inv s' ∧ c.after p s s' ∧ c.Allows Q r

/-- From every session with the invariant, a computation keeps a contract and has results with a
property. -/
def Meets (p : Part) (act : Run ρ μ α) (Q : α → Prop) : Prop :=
  ∀ s, c.inv s → c.MeetsAt p s act Q

section

variable {c} {p : Part} {act : Run ρ μ α} {Q Q' : α → Prop}

/-- A weaker property of the results. -/
lemma Meets.mono (h : c.Meets p act Q) (hQ : ∀ a, Q a → Q' a) : c.Meets p act Q' := by
  intro s hs r s' hr
  obtain ⟨hinv, hafter, hres⟩ := h s hs r s' hr
  refine ⟨hinv, hafter, ?_⟩
  cases r with
  | ok a => exact hQ a hres
  | error e => exact hres

/-- All answers of an expression keep a contract. -/
structure Covers (c : Contract ρ μ) (x : Meaning ρ μ) : Prop where
  value : c.Meets .expression x.value (Value.HasLaws c.law)
  items : c.Meets .expression x.items fun vs => ∀ v ∈ vs, v.HasLaws c.law
  law : c.Meets .expression x.law c.law
  laws : c.Meets .expression x.laws fun ls => ∀ l ∈ ls, c.die l
  stored : ∀ m, c.Meets .expression (x.stored m) (Binding.HasLaws c.law)
  step : ∀ m, c.Meets .statement (x.step m) (Flow.Holds (m.HasLaws c.law))

/-- The value or law of an expression. -/
lemma Covers.answer {x : Meaning ρ μ} (hx : c.Covers x) (m : Mode) :
    c.Meets .expression (x.answer m) (m.HasLaws c.law) := by
  cases m with
  | sample => exact hx.value
  | exact => exact hx.law

end

variable [Mass μ]

/-- The primitive steps keep a contract. -/
structure IsSound : Prop where
  refl : ∀ p s, c.after p s s
  trans : ∀ {p s t u}, c.after p s t → c.after p t u → c.after p s u
  statement : ∀ {s t}, c.after .expression s t → c.after .statement s t
  ordinary : ∀ {f : Fault ρ μ}, f.IsOrdinary → c.stop (.fault f)
  outOfFuel : c.stop .outOfFuel
  spend : ∀ {s} n, c.inv s → c.inv { s with spent := s.spent + n } ∧
    c.after .expression s { s with spent := s.spent + n }
  lookup : ∀ {s name b}, c.inv s → s.frames.lookup? s.scope name = some b → b.HasLaws c.law
  assign : ∀ {s b} name, c.inv s → b.HasLaws c.law →
    c.inv (s.assign name b) ∧ c.after .statement s (s.assign name b)
  inside : ∀ {s}, c.inv s → c.usable s s.scope
  closure : ∀ {s shape f}, c.inv s → s.registry.find? shape = some (.user f) →
    c.usable s f.scope ∧ ∀ e ∈ f.body, e.Every c.node
  keep : ∀ {s t scope}, c.after .expression s t → c.usable s scope → c.usable t scope
  enter : ∀ {s scope}, c.inv s → c.usable s scope → c.inv (s.enter scope)
  leave : ∀ {s scope t}, c.inv s → c.inv t → c.after .statement (s.enter scope) t →
    c.inv (t.inScope s.scope) ∧ c.after .expression s (t.inScope s.scope)
  down : ∀ {s}, c.inv s → c.inv (s.down s.scope)
  up : ∀ {s scope t u}, c.inv s → c.after .statement (s.enter scope) t →
    c.inv u → c.after .statement (t.down t.scope) u →
    c.inv (u.up s.scope) ∧ c.after .expression s (u.up s.scope)
  declare : ∀ {s signature body}, c.inv s → c.node (.declare signature body) →
    (∀ e ∈ body, e.Every c.node) →
    let t := { s with
      registry := s.registry.insert signature.shape (.user ⟨signature, body, s.scope⟩) }
    c.inv t ∧ c.after .statement s t
  certain : ∀ x, c.law (.certain (.number x))
  die : ∀ {l}, c.law l → c.die l
  operate : ∀ {limits op l l' d}, c.law l → c.law l' → Law.operate limits op l l' = .ok d → c.law d
  sum : ∀ {limits l l' d}, c.law l → c.law l' → Dice.law limits l l' = .ok d → c.law d
  dice : ∀ {limits l l' ds}, c.law l → c.law l' → Dice.laws limits l l' = .ok ds →
    ∀ d ∈ ds, c.die d
  maximum : ∀ {limits ls d}, (∀ l ∈ ls, c.die l) → Law.maximum limits ls = .ok d → c.law d
  branch : ∀ {test l l'}, c.law test →
    (Mass.isPositive (Builtin.chanceOfNonzero test) = true → c.law l) →
    (Mass.isPositive (test.massOf (.number .zero)) = true → c.law l') →
    c.law (Law.addPositive (Law.addPositive .empty (Builtin.chanceOfNonzero test) l)
      (test.massOf (.number .zero)) l')

/-! ## Computations in turn -/

variable {c} {p : Part} {act : Run ρ μ α} {f : α → Run ρ μ β} {Q : α → Prop} {Q' : β → Prop}

variable (hc : c.IsSound)

include hc

/-- An expression changes no more than a statement may. -/
lemma Meets.statement (h : c.Meets .expression act Q) : c.Meets .statement act Q := by
  intro s hs r s' hr
  obtain ⟨hinv, hafter, hres⟩ := h s hs r s' hr
  exact ⟨hinv, hc.statement hafter, hres⟩

/-- An expression that is run as a part of either sort. -/
lemma Meets.part (p : Part) (h : c.Meets .expression act Q) : c.Meets p act Q :=
  match p with
  | .expression => h
  | .statement => h.statement hc

/-- A finished computation changes nothing. -/
lemma meetsAt_done {s : Session ρ μ} (hs : c.inv s) {r : Except (Stop ρ μ) α}
    (hact : act.exec s = .done (r, s)) (hr : c.Allows Q r) : c.MeetsAt p s act Q := by
  intro r' s' h
  obtain ⟨rfl, rfl⟩ := (Run.leads_iff_of_done hact).1 h
  exact ⟨hs, hc.refl p s', hr⟩

/-- A value that is given. -/
lemma meets_pure {a : α} (ha : Q a) : c.Meets p (pure a) Q := fun _ hs =>
  meetsAt_done hc hs rfl ha

/-- A failure with an ordinary fault. -/
lemma meets_fail {e : Fault ρ μ} (he : e.IsOrdinary) : c.Meets p (Run.fail e) Q := fun _ hs =>
  meetsAt_done hc hs rfl (hc.ordinary he)

/-- A calculation with results of a property that fails ordinarily. -/
lemma meets_ofExcept {x : Except (Fault ρ μ) α} (hx : FailsOrdinarily x)
    (hQ : ∀ a, x = .ok a → Q a) : c.Meets p (Run.ofExcept x) Q := by
  intro s hs
  refine meetsAt_done hc hs (Run.exec_ofExcept x s) ?_
  cases x with
  | ok a => exact hQ a rfl
  | error e => exact hc.ordinary (hx e rfl)

/-- The limits of the session. -/
lemma meets_limits : c.Meets p (Run.read (·.limits)) fun _ => True := fun _ hs =>
  meetsAt_done hc hs rfl trivial

/-- A computation keeps a contract if it does so in two parts, one after the other. -/
lemma meetsAt_bind {s : Session ρ μ} (hact : c.MeetsAt p s act Q)
    (hf : ∀ a s₁, act.Leads c.answers s (.ok a) s₁ → c.inv s₁ → Q a → c.MeetsAt p s₁ (f a) Q') :
    c.MeetsAt p s (act >>= f) Q' := by
  intro r s' h
  rcases Run.leads_bind.1 h with ⟨a, s₁, ha, hb⟩ | ⟨e, he, rfl⟩
  · obtain ⟨hinv, hafter, ha'⟩ := hact _ _ ha
    obtain ⟨hinv', hafter', hr⟩ := hf a s₁ ha hinv ha' _ _ hb
    exact ⟨hinv', hc.trans hafter hafter', hr⟩
  · exact hact _ _ he

/-- A computation keeps a contract if it does so in two parts, one after the other. -/
theorem meets_bind (hact : c.Meets p act Q) (hf : ∀ a, Q a → c.Meets p (f a) Q') :
    c.Meets p (act >>= f) Q' := fun s hs =>
  meetsAt_bind hc (hact s hs) fun a s₁ _ hs₁ ha => hf a ha s₁ hs₁

/-- A function of a result. -/
lemma meets_map {g : α → β} (hact : c.Meets p act Q) (hg : ∀ a, Q a → Q' (g a)) :
    c.Meets p (do return g (← act)) Q' :=
  meets_bind hc hact fun a ha => meets_pure hc (hg a ha)

/-- A computation for every item of a list. -/
theorem meets_mapM {xs : List α} {f : α → Run ρ μ β} (hf : ∀ x ∈ xs, c.Meets p (f x) Q') :
    c.Meets p (xs.mapM f) fun bs => ∀ b ∈ bs, Q' b := by
  induction xs with
  | nil => exact meets_pure hc (by simp)
  | cons x xs ih =>
    rw [List.forall_mem_cons] at hf
    rw [List.mapM_cons]
    exact meets_bind hc hf.1 fun b hb => meets_map hc (ih hf.2) fun bs hbs =>
      List.forall_mem_cons.2 ⟨hb, hbs⟩

/-- The binding of a name. -/
lemma meets_lookup (name : String) :
    c.Meets p (Run.lookup name) (Binding.HasLaws c.law) := by
  intro s hs
  refine meetsAt_done hc hs (Run.exec_lookup name s) ?_
  cases hb : s.frames.lookup? s.scope name with
  | none => exact hc.ordinary nofun
  | some b => exact hc.lookup hs hb

/-- A request for dice. -/
lemma meets_roll (count sides : Nat) :
    c.Meets .expression (Run.roll count sides) fun _ => True := by
  intro s hs r s' h
  obtain ⟨rfl, hr⟩ := Run.leads_roll.1 h
  obtain ⟨hinv, hafter⟩ := hc.spend count hs
  refine ⟨hinv, hafter, ?_⟩
  split at hr
  · obtain ⟨faces, _, rfl⟩ := hr
    trivial
  · exact hr ▸ hc.ordinary nofun

/-- A statement that is run in a fresh frame changes no more than an expression may. -/
lemma meets_inFreshFrame (hact : c.Meets .statement act Q) :
    c.Meets .expression (Run.inFreshFrame act) Q := by
  intro s hs r s' h
  obtain ⟨t, ht, rfl⟩ := Run.leads_inFreshFrame.1 h
  obtain ⟨hinv, hafter, hr⟩ := hact _ (hc.enter hs (hc.inside hs)) _ _ ht
  obtain ⟨hinv', hafter'⟩ := hc.leave hs hinv hafter
  exact ⟨hinv', hafter', hr⟩

/-! ## Forms of expressions -/

/-- An expression that is its own only component. -/
lemma covers_ofViews {value : Run ρ μ (Value ρ μ)} {law : Run ρ μ (Law ρ μ)}
    (hvalue : c.Meets .expression value (Value.HasLaws c.law))
    (hlaw : c.Meets .expression law c.law) : c.Covers (.ofViews value law) where
  value := hvalue
  items := meets_map hc hvalue fun v hv => by simpa using hv
  law := hlaw
  laws := meets_map hc hlaw fun l hl => by simpa using hc.die hl
  stored
    | .sample => meets_map hc hvalue fun v hv => hv
    | .exact => meets_map hc hlaw fun l hl => hl
  step
    | .sample => meets_map hc (hvalue.statement hc) fun v hv w hw => Option.some_inj.1 hw ▸ hv
    | .exact => meets_map hc (hlaw.statement hc) fun v hv w hw => Option.some_inj.1 hw ▸ hv

/-- A statement without value and law. -/
lemma covers_ofStatement (kind : Kind) {step : (m : Mode) → Run ρ μ (Flow (m.Answer ρ μ))}
    (hstep : ∀ m, c.Meets .statement (step m) (Flow.Holds (m.HasLaws c.law))) :
    c.Covers (.ofStatement kind step) where
  value := meets_fail hc nofun
  items := meets_fail hc nofun
  law := meets_fail hc nofun
  laws := meets_fail hc nofun
  stored
    | .sample => meets_fail hc nofun
    | .exact => meets_fail hc nofun
  step := hstep

/-- A number. -/
lemma covers_literal (x : Number ρ) : c.Covers (.literal x) :=
  covers_ofViews hc (meets_pure hc (.number x)) (meets_pure hc (hc.certain x))

/-- The number that an expression is sampled to. -/
lemma Covers.toNumber {x : Meaning ρ μ} (hx : c.Covers x) {f : Number ρ → Run ρ μ α}
    (hf : ∀ n, c.Meets .expression (f n) Q) :
    c.Meets .expression (do let n ← Run.ofExcept (← x.value).toNumber; f n) Q :=
  meets_bind hc hx.value fun v _ =>
    meets_bind hc (meets_ofExcept hc v.failsOrdinarily_toNumber fun _ _ => trivial) fun n _ => hf n

/-- An operator between two expressions. -/
lemma covers_binary (op : Operator) {x y : Meaning ρ μ} (hx : c.Covers x) (hy : c.Covers y) :
    c.Covers (.binary op x y) := by
  refine covers_ofViews hc ?_ ?_
  · refine hx.toNumber hc fun m => hy.toNumber hc fun n => ?_
    exact meets_map hc (meets_ofExcept hc (op.failsOrdinarily_apply m n) fun _ _ => trivial)
      fun z _ => .number z
  · refine meets_bind hc hx.law fun l hl => meets_bind hc hy.law fun l' hl' => ?_
    refine meets_bind hc (meets_limits hc) fun limits _ => ?_
    exact meets_ofExcept hc (Law.failsOrdinarily_operate limits op l l') fun d =>
      hc.operate hl hl'

/-- The faces of a roll. -/
lemma meets_faces {count sides : Meaning ρ μ} (hcount : c.Covers count)
    (hsides : c.Covers sides) :
    c.Meets .expression (Meaning.faces count sides) fun _ => True := by
  refine hsides.toNumber hc fun y => ?_
  refine meets_bind hc (meets_ofExcept hc (Dice.failsOrdinarily_sides y) fun _ _ => trivial)
    fun m _ => hcount.toNumber hc fun x => ?_
  refine meets_bind hc (meets_ofExcept hc (Dice.failsOrdinarily_count x) fun _ _ => trivial)
    fun n _ => ?_
  exact meets_map hc (meets_roll hc n m) fun _ _ => trivial

/-- A roll. -/
lemma covers_dice {count sides : Meaning ρ μ} (hcount : c.Covers count)
    (hsides : c.Covers sides) : c.Covers (.dice count sides) := by
  have hfaces := meets_faces hc hcount hsides
  have hwhole := covers_ofViews hc
    (meets_map hc hfaces fun xs _ => .number (xs.foldl (· + ·) .zero))
    (meets_bind hc hcount.law fun l hl => meets_bind hc hsides.law fun l' hl' =>
      meets_bind hc (meets_limits hc) fun limits _ =>
        meets_ofExcept hc (Dice.failsOrdinarily_law limits l l') fun _ => hc.sum hl hl')
  exact
    { hwhole with
      items := meets_map hc hfaces fun xs _ => List.forall_mem_map.2 fun x _ => .number x
      laws := meets_bind hc hcount.law fun l hl => meets_bind hc hsides.law fun l' hl' =>
        meets_bind hc (meets_limits hc) fun limits _ =>
          meets_ofExcept hc (Dice.failsOrdinarily_laws limits l l') fun _ => hc.dice hl hl' }

/-- A sequence. -/
lemma covers_sequence {xs : List (Meaning ρ μ)} (hxs : ∀ x ∈ xs, c.Covers x) :
    c.Covers (.sequence xs) := by
  have hitems : c.Meets .expression (xs.mapM (·.value)) fun vs => ∀ v ∈ vs, v.HasLaws c.law :=
    meets_mapM hc fun x hx => (hxs x hx).value
  have hlaws : c.Meets .expression (xs.mapM (·.law)) fun ls => ∀ l ∈ ls, c.law l :=
    meets_mapM hc fun x hx => (hxs x hx).law
  have hwhole := covers_ofViews hc (meets_map hc hitems fun vs hvs => .sequence hvs)
    (meets_fail hc (e := .unsupported .takeLaw (.expr .sequence)) nofun)
  exact
    { hwhole with
      items := hitems
      laws := hlaws.mono fun ls hls l hl => hc.die (hls l hl)
      stored
        | .sample => hwhole.stored .sample
        | .exact => meets_map hc hlaws fun ls hls => hls }

/-- A variable. -/
lemma covers_var (name : String) : c.Covers (.var name) := by
  have hlookup := meets_lookup hc (p := .expression) name
  have hwhole := covers_ofViews hc (meets_map hc hlookup fun b hb => hb.toValue)
    (meets_bind hc hlookup fun b hb =>
      meets_ofExcept hc b.failsOrdinarily_toLaw fun _ => hb.toLaw hc.certain)
  exact
    { hwhole with
      items := meets_map hc hlookup fun _ hb => hb.items
      laws := meets_bind hc hlookup fun b hb =>
        meets_ofExcept hc b.failsOrdinarily_toLaws fun ls hls l hl =>
          hc.die (hb.toLaws hc.certain hls l hl)
      stored
        | .sample => hwhole.stored .sample
        | .exact => hlookup }

/-! ## Statements -/

/-- The binding of a name in the innermost frame. -/
lemma meets_assign (name : String) {b : Binding ρ μ} (hb : b.HasLaws c.law) :
    c.Meets .statement (Run.assign name b) fun _ => True := by
  intro s hs r s' h
  obtain ⟨rfl, rfl⟩ := Run.leads_assign.1 h
  obtain ⟨hinv, hafter⟩ := hc.assign name hs hb
  exact ⟨hinv, hafter, trivial⟩

/-- An assignment. -/
lemma covers_assign (name : String) {x : Meaning ρ μ} (hx : c.Covers x) :
    c.Covers (.assign name x) :=
  covers_ofStatement hc .assignment fun m =>
    meets_bind hc ((hx.stored m).statement hc) fun _ hb =>
      meets_map hc (meets_assign hc name hb) fun _ _ => nofun

/-- An output. -/
lemma covers_output {x : Meaning ρ μ} (hx : c.Covers x) : c.Covers (.output x) :=
  covers_ofStatement hc .output fun m => meets_map hc ((hx.answer m).statement hc) fun _ ha => ha

/-- A declaration. -/
lemma covers_declare {signature : Signature} {body : List (Expr ρ)}
    (hnode : c.node (.declare signature body)) (hbody : ∀ e ∈ body, e.Every c.node) :
    c.Covers (.declare signature body) := by
  have hdeclare : c.Meets .statement (Run.declare signature body) fun _ => True := by
    intro s hs r s' h
    rw [Run.leads_declare] at h
    split at h
    · obtain ⟨rfl, rfl⟩ := h
      exact ⟨hs, hc.refl _ s', hc.ordinary nofun⟩
    · obtain ⟨rfl, rfl⟩ := h
      obtain ⟨hinv, hafter⟩ := hc.declare hs hnode hbody
      exact ⟨hinv, hafter, trivial⟩
  exact covers_ofStatement hc .declaration fun _ => meets_map hc hdeclare fun _ _ => nofun

/-- A list of statements. -/
lemma meets_runFrom (m : Mode) {xs : List (Meaning ρ μ)} (hxs : ∀ x ∈ xs, c.Covers x)
    {last : Option (m.Answer ρ μ)} (hlast : ∀ a, last = some a → m.HasLaws c.law a) :
    c.Meets .statement (Meaning.runFrom m last xs) (Flow.Holds (m.HasLaws c.law)) := by
  induction xs generalizing last with
  | nil => exact meets_pure hc hlast
  | cons x xs ih =>
    rw [List.forall_mem_cons] at hxs
    refine meets_bind hc (hxs.1.step m) fun flow hflow => ?_
    cases flow with
    | next v => exact ih hxs.2 hflow
    | ended a => exact meets_pure hc hflow

/-- A list of statements that starts anew. -/
lemma meets_runAll (m : Mode) {xs : List (Meaning ρ μ)} (hxs : ∀ x ∈ xs, c.Covers x) :
    c.Meets .statement (Meaning.runAll m xs) (Flow.Holds (m.HasLaws c.law)) :=
  meets_runFrom hc m hxs nofun

/-- The value of a list of statements. -/
lemma meets_resultOf (m : Mode) {xs : List (Meaning ρ μ)} (hxs : ∀ x ∈ xs, c.Covers x) :
    c.Meets .statement (Meaning.resultOf m xs) (m.HasLaws c.law) := by
  refine meets_bind hc (meets_runAll hc m hxs) fun flow hflow => ?_
  refine meets_ofExcept hc flow.failsOrdinarily_result fun a ha => ?_
  rcases flow with (_ | b) | b
  · cases ha
  · exact Except.ok.inj ha ▸ hflow b rfl
  · exact Except.ok.inj ha ▸ hflow

/-- A block. -/
lemma covers_block {xs : List (Meaning ρ μ)} (hxs : ∀ x ∈ xs, c.Covers x) :
    c.Covers (.block xs) :=
  { covers_ofViews hc (meets_inFreshFrame hc (meets_resultOf hc .sample hxs))
      (meets_inFreshFrame hc (meets_resultOf hc .exact hxs)) with
    step := fun m => (meets_inFreshFrame hc (meets_runAll hc m hxs)).statement hc }

/-! ## Calls -/

/-- The names of the parameters are bound one after the other. -/
lemma assignAll {s : Session ρ μ} (hs : c.inv s) {bs : List (String × Binding ρ μ)}
    (hbs : ∀ b ∈ bs, b.2.HasLaws c.law) :
    c.inv (s.assignAll bs) ∧ c.after .statement s (s.assignAll bs) := by
  induction bs generalizing s with
  | nil => exact ⟨hs, hc.refl _ s⟩
  | cons b bs ih =>
    rw [List.forall_mem_cons] at hbs
    obtain ⟨hinv, hafter⟩ := hc.assign b.1 hs hbs.1
    obtain ⟨hinv', hafter'⟩ := ih hinv hbs.2
    exact ⟨hinv', hc.trans hafter hafter'⟩

section Calls

variable {args : Slots (Meaning ρ μ)} (hargs : ∀ x ∈ args.items, c.Covers x)

include hargs

/-- An argument at a position. -/
lemma meets_nth (position : Nat) :
    c.Meets p (Run.ofExcept (args.nth position)) c.Covers :=
  meets_ofExcept hc (args.failsOrdinarily_nth position) fun x hx =>
    hargs x (Slots.mem_items_of_nth hx)

/-- An argument under a keyword. -/
lemma meets_firstOf (keyword : String) :
    c.Meets p (Run.ofExcept (args.firstOf keyword)) c.Covers :=
  meets_ofExcept hc (args.failsOrdinarily_firstOf keyword) fun x hx =>
    hargs x (Slots.mem_items_of_firstOf hx)

/-- A built-in function, sampled. -/
lemma meets_builtin_value (b : Builtin) :
    c.Meets .expression (b.value args) (Value.HasLaws c.law) := by
  cases b with
  | max =>
    refine meets_bind hc (meets_nth hc hargs 0) fun x hx => meets_bind hc hx.items fun vs _ => ?_
    exact meets_map hc (meets_ofExcept hc (.mapM Value.failsOrdinarily_toNumber vs)
      fun _ _ => trivial) fun xs _ => .number _
  | branch =>
    refine meets_bind hc (meets_nth hc hargs 0) fun x hx => hx.toNumber hc fun n => ?_
    exact meets_bind hc (meets_firstOf hc hargs _) fun y hy => hy.value
  | law =>
    exact meets_bind hc (meets_nth hc hargs 0) fun x hx => meets_map hc hx.law fun l hl => .law hl

/-- A branch of a mixture. -/
lemma meets_mixBranch (keyword : String) (chance : μ) (mixture : Law ρ μ) :
    c.Meets .expression (Builtin.mixBranch args keyword chance mixture) fun d =>
      ∃ l, (Mass.isPositive chance = true → c.law l) ∧ d = mixture.addPositive chance l := by
  unfold Builtin.mixBranch Law.addPositive
  split
  · next h =>
    refine meets_bind hc (meets_firstOf hc hargs keyword) fun x hx => ?_
    exact meets_map hc hx.law fun l hl => ⟨l, fun _ => hl, rfl⟩
  · next h => exact meets_pure hc ⟨.empty, fun h' => absurd h' h, rfl⟩

/-- A built-in function as a law. -/
lemma meets_builtin_exact (b : Builtin) :
    c.Meets .expression (b.exact args) c.law := by
  cases b with
  | max =>
    refine meets_bind hc (meets_nth hc hargs 0) fun x hx => meets_bind hc hx.laws fun ls hls => ?_
    refine meets_bind hc (meets_limits hc) fun limits _ => ?_
    exact meets_ofExcept hc (Law.failsOrdinarily_maximum limits ls) fun _ => hc.maximum hls
  | branch =>
    refine meets_bind hc (meets_nth hc hargs 0) fun x hx => meets_bind hc hx.law fun t ht => ?_
    refine meets_bind hc (meets_mixBranch hc hargs "then" _ _) fun mixture hmixture => ?_
    obtain ⟨l, hl, rfl⟩ := hmixture
    refine (meets_mixBranch hc hargs "else" _ _).mono fun d hd => ?_
    obtain ⟨l', hl', rfl⟩ := hd
    exact hc.branch ht hl hl'
  | law => exact meets_bind hc (meets_nth hc hargs 0) fun x hx => hx.law

/-- A built-in function in a mode. -/
lemma meets_builtin (b : Builtin) (m : Mode) :
    c.Meets .expression (b.answer args m) (m.HasLaws c.law) := by
  cases m with
  | sample => exact meets_builtin_value hc hargs b
  | exact => exact meets_builtin_exact hc hargs b

/-- What the parameters of a function hold. -/
lemma meets_closure_bind (signature : Signature) (m : Mode) :
    c.Meets .expression (Closure.bind signature args m) fun bs => ∀ b ∈ bs, b.2.HasLaws c.law :=
  meets_mapM hc fun a ha =>
    meets_map hc ((hargs a.2 (Slots.mem_items_of_mem_zip ha)).stored m) fun _ hb => hb

/-- How bodies are run keeps a contract. -/
def RunsBodies (c : Contract ρ μ) (enter : Enter ρ μ) : Prop :=
  ∀ body m, (∀ e ∈ body, e.Every c.node) → c.Meets .statement (enter body m) (m.HasLaws c.law)

variable {enter : Enter ρ μ} (henter : c.RunsBodies enter)

include henter

/-- The activation of a function. -/
lemma meetsAt_closure_activate {s : Session ρ μ} (hs : c.inv s) {f : Closure ρ}
    (hscope : c.usable s f.scope) (hbody : ∀ e ∈ f.body, e.Every c.node) (m : Mode) :
    c.MeetsAt .expression s (f.activate enter args m) (m.HasLaws c.law) := by
  intro r s' h
  rcases Run.leads_bind.1 h with ⟨bs, t, hbs, h⟩ | ⟨e, he, rfl⟩
  · obtain ⟨ht, hst, hbs⟩ := meets_closure_bind hc hargs f.signature m s hs _ _ hbs
    have hinner := hc.enter ht (hc.keep hst hscope)
    obtain ⟨hbound, hafter⟩ := assignAll hc hinner hbs
    rw [Run.leads_activation] at h
    split at h
    · obtain ⟨rfl, rfl⟩ := h
      obtain ⟨hinv, hleave⟩ := hc.leave ht hbound hafter
      exact ⟨hinv, hc.trans hst hleave, hc.ordinary nofun⟩
    · obtain ⟨u, hu, rfl⟩ := h
      have hdown := hc.down hbound
      rw [Session.assignAll_scope] at hdown
      obtain ⟨hu', hafter', hr⟩ := henter f.body m hbody _ hdown _ _ hu
      obtain ⟨hinv, hup⟩ := hc.up ht hafter hu' (by rwa [Session.assignAll_scope])
      exact ⟨hinv, hc.trans hst hup, hr⟩
  · exact meets_closure_bind hc hargs f.signature m s hs _ _ he

/-- A call of whatever function is registered under its shape. -/
lemma meets_call (shape : Shape) (m : Mode) :
    c.Meets .expression (do (← Run.function shape).answer enter args m) (m.HasLaws c.law) := by
  intro s hs
  refine meetsAt_bind hc (Q := fun _ => True) (meetsAt_done hc hs (Run.exec_function shape s) ?_) ?_
  · cases s.registry.find? shape with
    | none => exact hc.ordinary nofun
    | some f => trivial
  · intro f s₁ hf _ _
    obtain ⟨hf, rfl⟩ := Run.leads_function_ok.1 hf
    cases f with
    | builtin b => exact meets_builtin hc hargs b m s₁ hs
    | user f =>
      obtain ⟨hscope, hbody⟩ := hc.closure hs hf
      exact meetsAt_closure_activate hc hargs henter hs hscope hbody m

/-- A call. -/
lemma covers_call (shape : Shape) : c.Covers (.call enter shape args) :=
  covers_ofViews hc (meets_call hc hargs henter shape .sample)
    (meets_call hc hargs henter shape .exact)

end Calls

/-! ## Expressions -/

/-- Every expression keeps a contract if the bodies of functions are run in a way that does. -/
lemma covers_denote {enter : Enter ρ μ} (henter : c.RunsBodies enter) {e : Expr ρ}
    (he : e.Every c.node) : c.Covers (e.denote enter) := by
  induction he with
  | @intro e hnode hparts ih =>
    have hmap {es : List (Expr ρ)} (hes : ∀ e ∈ es, c.Covers (e.denote enter)) :
        ∀ x ∈ es.map (Expr.denote enter), c.Covers x := List.forall_mem_map.2 hes
    cases e with
    | literal x => exact covers_literal hc x
    | var name => exact covers_var hc name
    | binary op left right =>
      exact covers_binary hc op (ih left (by simp [Expr.parts])) (ih right (by simp [Expr.parts]))
    | dice count sides =>
      exact covers_dice hc (ih count (by simp [Expr.parts])) (ih sides (by simp [Expr.parts]))
    | sequence es =>
      rw [Expr.denote, Expr.denoteAll_eq_map]
      exact covers_sequence hc (hmap ih)
    | assign name e => exact covers_assign hc name (ih e (by simp [Expr.parts]))
    | call shape arguments =>
      rw [Expr.denote_call]
      refine covers_call hc (fun x hx => ?_) henter shape
      rw [Slots.items_map] at hx
      exact hmap ih x hx
    | block es =>
      rw [Expr.denote, Expr.denoteAll_eq_map]
      exact covers_block hc (hmap ih)
    | output e => exact covers_output hc (ih e (by simp [Expr.parts]))
    | declare signature body => exact covers_declare hc hnode hparts

/-- Every expression keeps a sound contract. -/
theorem covers_meaning (fuel : Nat) {e : Expr ρ} (he : e.Every c.node) :
    c.Covers (e.meaning fuel) := by
  induction fuel generalizing e with
  | zero =>
    refine covers_denote hc (fun _ _ _ s hs => ?_) he
    exact meetsAt_done hc hs (Run.exec_throw _ s) hc.outOfFuel
  | succ fuel ih =>
    refine covers_denote hc (fun body m hbody => ?_) he
    exact meets_resultOf hc m (List.forall_mem_map.2 fun e he => ih (hbody e he))

omit hc in
/-- An answer of an expression keeps what its meaning keeps. -/
lemma meets_ask {e : Expr ρ} {question : Meaning ρ μ → Run ρ μ α}
    (h : ∀ fuel, c.Meets p (question (e.meaning fuel)) Q) : c.Meets p (e.ask question) Q :=
  fun s hs r s' hr => h s.fuel s hs r s' (Run.leads_ask.1 hr)

end Contract

end DiceCalculus
