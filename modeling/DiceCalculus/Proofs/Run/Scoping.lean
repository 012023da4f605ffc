import DiceCalculus.Proofs.Run.Contract
import DiceCalculus.Proofs.Sessions

set_option autoImplicit false
set_option relaxedAutoImplicit false

/-!
# Scopes and the variables within reach

The frames of a scope exist, and they go on to exist since no frame is ever removed. What they bind
changes by statements only: an expression that is evaluated for its answer assigns in frames that it
makes itself, so that no variable that was there before changes.

## Main definitions

* `Session.IsWellScoped` — all frames of the scope and of the registered functions exist.
* `Contract.wellScoped` — the contract of an evaluation that keeps it so.
* `Contract.steady` — the contract of an evaluation that declares no function and leaves the
  variables as they are.
* `Contract.and` — two contracts at once.

## Main results

* `Contract.isSound_wellScoped`, `Contract.isSound_steady` — every primitive step keeps them.
* `Contract.IsSound.and` — sound contracts are sound together.
* `Session.isWellScoped_start` — a new session is well scoped.
-/

namespace DiceCalculus

variable {ρ μ : Type} [Scalar ρ]

/-! ## Predicates of laws and of expressions -/

section Predicates

variable {P Q : Law ρ μ → Prop}

/-- A predicate of all laws holds of every law in a value. -/
lemma Value.hasLaws_of_forall (h : ∀ l, P l) : ∀ v : Value ρ μ, v.HasLaws P
  | number x => .number x
  | sequence vs => .sequence fun v _ => hasLaws_of_forall h v
  | law l => .law (h l)

/-- Two predicates that hold of every law in a value hold of them together. -/
lemma Value.HasLaws.and {v : Value ρ μ} (h : v.HasLaws P) (h' : v.HasLaws Q) :
    v.HasLaws fun l => P l ∧ Q l := by
  induction h with
  | number x => exact .number x
  | sequence _ ih =>
    cases h' with
    | sequence h' => exact .sequence fun v hv => ih v hv (h' v hv)
  | law h =>
    cases h' with
    | law h' => exact .law ⟨h, h'⟩

/-- A weaker predicate of the laws in a value. -/
lemma Value.HasLaws.mono (hPQ : ∀ l, P l → Q l) {v : Value ρ μ} (h : v.HasLaws P) :
    v.HasLaws Q := by
  induction h with
  | number x => exact .number x
  | sequence _ ih => exact .sequence ih
  | law h => exact .law (hPQ _ h)

/-- A predicate of all laws holds of every law in a binding. -/
lemma Binding.hasLaws_of_forall (h : ∀ l, P l) (b : Binding ρ μ) : b.HasLaws P := by
  cases b with
  | value v => exact v.hasLaws_of_forall h
  | law l => exact h l
  | laws ls => exact fun l _ => h l

/-- Two predicates that hold of every law in a binding hold of them together. -/
lemma Binding.HasLaws.and {b : Binding ρ μ} (h : b.HasLaws P) (h' : b.HasLaws Q) :
    b.HasLaws fun l => P l ∧ Q l := by
  cases b with
  | value v => exact Value.HasLaws.and h h'
  | law l => exact ⟨h, h'⟩
  | laws ls => exact fun l hl => ⟨h l hl, h' l hl⟩

/-- A weaker predicate of the laws in a binding. -/
lemma Binding.HasLaws.mono (hPQ : ∀ l, P l → Q l) {b : Binding ρ μ} (h : b.HasLaws P) :
    b.HasLaws Q := by
  cases b with
  | value v => exact Value.HasLaws.mono hPQ h
  | law l => exact hPQ l h
  | laws ls => exact fun l hl => hPQ l (h l hl)

omit [Scalar ρ] in
/-- A weaker predicate of the expressions inside an expression. -/
lemma Expr.Every.mono {P Q : Expr ρ → Prop} (hPQ : ∀ e, P e → Q e) {e : Expr ρ} (h : e.Every P) :
    e.Every Q := by
  induction h with
  | intro self _ ih => exact .intro (hPQ _ self) ih

omit [Scalar ρ] in
/-- Two predicates that hold of all expressions inside an expression hold of them together. -/
lemma Expr.Every.and {P Q : Expr ρ → Prop} {e : Expr ρ} (h : e.Every P) (h' : e.Every Q) :
    e.Every fun e => P e ∧ Q e := by
  induction h with
  | intro self _ ih =>
    exact .intro ⟨self, h'.self⟩ fun part hpart => ih part hpart (h'.of_mem_parts hpart)

end Predicates

/-! ## Two contracts at once -/

namespace Contract

/-- Two contracts at once. -/
def and (c c' : Contract ρ μ) : Contract ρ μ where
  answers count sides faces := c.answers count sides faces ∧ c'.answers count sides faces
  inv s := c.inv s ∧ c'.inv s
  usable s scope := c.usable s scope ∧ c'.usable s scope
  after p s t := c.after p s t ∧ c'.after p s t
  law l := c.law l ∧ c'.law l
  die l := c.die l ∧ c'.die l
  stop e := c.stop e ∧ c'.stop e
  node e := c.node e ∧ c'.node e

/-- Two contracts that the primitive steps keep are kept at once.

**Proof sketch.** Step by step: each clause of the conjunction is that of both contracts. -/
theorem IsSound.and [Mass μ] {c c' : Contract ρ μ} (h : c.IsSound) (h' : c'.IsSound) :
    (c.and c').IsSound where
  refl p s := ⟨h.refl p s, h'.refl p s⟩
  trans hs ht := ⟨h.trans hs.1 ht.1, h'.trans hs.2 ht.2⟩
  statement hs := ⟨h.statement hs.1, h'.statement hs.2⟩
  ordinary hf := ⟨h.ordinary hf, h'.ordinary hf⟩
  outOfFuel := ⟨h.outOfFuel, h'.outOfFuel⟩
  spend n hs :=
    have hl := h.spend n hs.1
    have hr := h'.spend n hs.2
    ⟨⟨hl.1, hr.1⟩, hl.2, hr.2⟩
  lookup hs hb := (h.lookup hs.1 hb).and (h'.lookup hs.2 hb)
  assign name hs hb :=
    have hl := h.assign name hs.1 (hb.mono fun _ hl => hl.1)
    have hr := h'.assign name hs.2 (hb.mono fun _ hl => hl.2)
    ⟨⟨hl.1, hr.1⟩, hl.2, hr.2⟩
  inside hs := ⟨h.inside hs.1, h'.inside hs.2⟩
  closure hs hf :=
    have hl := h.closure hs.1 hf
    have hr := h'.closure hs.2 hf
    ⟨⟨hl.1, hr.1⟩, fun e he => (hl.2 e he).and (hr.2 e he)⟩
  keep hs hscope := ⟨h.keep hs.1 hscope.1, h'.keep hs.2 hscope.2⟩
  enter hs hscope := ⟨h.enter hs.1 hscope.1, h'.enter hs.2 hscope.2⟩
  leave hs ht hafter :=
    have hl := h.leave hs.1 ht.1 hafter.1
    have hr := h'.leave hs.2 ht.2 hafter.2
    ⟨⟨hl.1, hr.1⟩, hl.2, hr.2⟩
  down hs := ⟨h.down hs.1, h'.down hs.2⟩
  up hs hafter hu hafter' :=
    have hl := h.up hs.1 hafter.1 hu.1 hafter'.1
    have hr := h'.up hs.2 hafter.2 hu.2 hafter'.2
    ⟨⟨hl.1, hr.1⟩, hl.2, hr.2⟩
  declare hs hnode hbody :=
    have hl := h.declare hs.1 hnode.1 fun e he => (hbody e he).mono fun _ he => he.1
    have hr := h'.declare hs.2 hnode.2 fun e he => (hbody e he).mono fun _ he => he.2
    ⟨⟨hl.1, hr.1⟩, hl.2, hr.2⟩
  certain x := ⟨h.certain x, h'.certain x⟩
  die hl := ⟨h.die hl.1, h'.die hl.2⟩
  operate hl hl' hd := ⟨h.operate hl.1 hl'.1 hd, h'.operate hl.2 hl'.2 hd⟩
  sum hl hl' hd := ⟨h.sum hl.1 hl'.1 hd, h'.sum hl.2 hl'.2 hd⟩
  dice hl hl' hds d hd := ⟨h.dice hl.1 hl'.1 hds d hd, h'.dice hl.2 hl'.2 hds d hd⟩
  maximum hls hd :=
    ⟨h.maximum (fun l hl => (hls l hl).1) hd, h'.maximum (fun l hl => (hls l hl).2) hd⟩
  branch htest hl hl' :=
    ⟨h.branch htest.1 (fun hp => (hl hp).1) fun hp => (hl' hp).1,
      h'.branch htest.2 (fun hp => (hl hp).2) fun hp => (hl' hp).2⟩

end Contract

/-! ## Scopes -/

/-- All frames of a scope exist. -/
def Frames.Contains (fs : Frames ρ μ) (scope : Scope) : Prop := ∀ i ∈ scope.chain, i < fs.size

/-- The frames of the scope, and those of the scopes of the registered functions, exist. -/
structure Session.IsWellScoped (s : Session ρ μ) : Prop where
  /-- The frames of the scope exist. -/
  scope : s.frames.Contains s.scope
  /-- The frames of the scopes of the registered functions exist. -/
  closures : ∀ shape f, s.registry.find? shape = some (.user f) → s.frames.Contains f.scope

namespace Session

variable (s : Session ρ μ)

/-- Binding a name keeps the frames. -/
lemma size_le_assign (name : String) (b : Binding ρ μ) :
    s.frames.size ≤ (s.assign name b).frames.size :=
  Nat.le_of_eq (Frames.size_assign ..).symm

/-- A fresh frame is one more. -/
lemma size_le_enter (scope : Scope) : s.frames.size ≤ (s.enter scope).frames.size :=
  Nat.le_trans (Nat.le_succ _) (Nat.le_of_eq (Frames.size_extend s.frames scope).symm)

end Session

namespace Frames

variable {fs gs : Frames ρ μ} {scope : Scope}

/-- A scope whose frames exist keeps them when there are more frames. -/
lemma Contains.mono (h : fs.Contains scope) (hle : fs.size ≤ gs.size) : gs.Contains scope :=
  fun i hi => Nat.lt_of_lt_of_le (h i hi) hle

/-- A scope with a fresh frame exists. -/
lemma Contains.extend (h : fs.Contains scope) : (fs.extend scope).2.Contains (fs.extend scope).1 := by
  intro i hi
  rw [size_extend]
  rw [chain_extend] at hi
  rcases List.mem_cons.1 hi with rfl | hi
  · exact Nat.lt_succ_self _
  · exact Nat.lt_succ_of_lt (h i hi)

end Frames

namespace Contract

variable (ρ μ)

/-- The contract of an evaluation whose scopes exist. -/
def wellScoped : Contract ρ μ where
  answers := .any
  inv := Session.IsWellScoped
  usable s scope := s.frames.Contains scope
  after _ s t := t.scope = s.scope ∧ s.frames.size ≤ t.frames.size
  law _ := True
  die _ := True
  stop _ := True
  node _ := True

variable {ρ μ}

/-- Every primitive step of an evaluation keeps the scopes in existence.

**Proof sketch.** Step by step. Frames are never removed, so that a scope that exists goes on to do
so; a fresh frame extends a scope that exists; and a function that is declared has the scope in
which it is declared. -/
theorem isSound_wellScoped [Mass μ] : (wellScoped ρ μ).IsSound where
  refl _ s := ⟨rfl, Nat.le_refl _⟩
  trans h h' := ⟨h'.1.trans h.1, Nat.le_trans h.2 h'.2⟩
  statement h := h
  ordinary _ := trivial
  outOfFuel := trivial
  spend _ hs := ⟨⟨hs.scope, hs.closures⟩, rfl, Nat.le_refl _⟩
  lookup _ _ := Binding.hasLaws_of_forall (fun _ => trivial) _
  assign {s b} name hs _ := by
    have hle : s.frames.size ≤ (s.assign name b).frames.size := Session.size_le_assign s name b
    exact ⟨⟨hs.scope.mono hle, fun shape f hf => (hs.closures shape f hf).mono hle⟩, rfl, hle⟩
  inside hs := hs.scope
  closure hs hf := ⟨hs.closures _ _ hf, fun e _ => Expr.every_of_forall (fun _ => trivial) e⟩
  keep h hscope := hscope.mono h.2
  enter {s scope} hs hscope :=
    ⟨hscope.extend, fun shape f hf => (hs.closures shape f hf).mono (Session.size_le_enter s scope)⟩
  leave {s scope t} hs ht h := by
    have hle : s.frames.size ≤ t.frames.size := Nat.le_trans (Session.size_le_enter s scope) h.2
    exact ⟨⟨hs.scope.mono hle, ht.closures⟩, rfl, hle⟩
  down hs := ⟨hs.scope, hs.closures⟩
  up {s scope t u} hs h hu h' := by
    have hle : s.frames.size ≤ u.frames.size :=
      Nat.le_trans (Session.size_le_enter s scope) (Nat.le_trans h.2 h'.2)
    exact ⟨⟨hs.scope.mono hle, hu.closures⟩, rfl, hle⟩
  declare {s signature body} hs _ _ := by
    refine ⟨⟨hs.scope, fun shape f hf => ?_⟩, rfl, Nat.le_refl _⟩
    rw [Dictionary.find?_insert] at hf
    split at hf
    · obtain rfl := Function.user.inj (Option.some_inj.1 hf)
      exact hs.scope
    · exact hs.closures shape f hf
  certain _ := trivial
  die _ := trivial
  operate _ _ _ := trivial
  sum _ _ _ := trivial
  dice _ _ _ _ _ := trivial
  maximum _ _ := trivial
  branch _ _ _ := trivial

end Contract

namespace Session

variable {s : Session ρ μ}

/-- A new session is well scoped. -/
theorem isWellScoped_start (limits : Limits μ) : (start limits : Session ρ μ).IsWellScoped where
  scope i hi := by
    obtain rfl := List.mem_singleton.1 hi
    exact Nat.one_pos
  closures shape f hf := absurd hf (Registry.find?_standard_ne_user shape f)

/-- A session that is renewed is well scoped. -/
lemma IsWellScoped.renewed (hs : s.IsWellScoped) : s.renewed.IsWellScoped :=
  ⟨hs.scope, hs.closures⟩

end Session

/-! ## Variables -/

namespace Contract

/-- The contract of an evaluation with a fixed registry, which leaves the variables as they are. A
statement may change those of the innermost frame. -/
def steady (μ : Type) (R : Registry ρ) (node : Expr ρ → Prop) : Contract ρ μ where
  answers := .any
  inv s := s.registry = R
  usable _ _ := True
  after p s t := t.scope = s.scope ∧ s.frames.size ≤ t.frames.size ∧ ∀ i < s.frames.size,
    (p = .statement → i ≠ s.scope.frame) → ∀ name, t.frames.find? i name = s.frames.find? i name
  law _ := True
  die _ := True
  stop _ := True
  node := node

variable {R : Registry ρ} {node : Expr ρ → Prop}

/-- Every primitive step of an evaluation without declarations leaves the variables as they are.

**Proof sketch.** Step by step. An assignment binds a name in the innermost frame only, which is
exempt. What is done behind a fresh frame is done in that one, so that all frames that were there
before are not the innermost one of it. There are no declarations. -/
theorem isSound_steady [Mass μ]
    (hR : ∀ shape f, R.find? shape = some (.user f) → ∀ e ∈ f.body, e.Every node)
    (hnode : ∀ signature body, ¬node (.declare signature body)) : (steady μ R node).IsSound where
  refl _ s := ⟨rfl, Nat.le_refl _, fun _ _ _ _ => rfl⟩
  trans {p s t u} h h' := by
    refine ⟨h'.1.trans h.1, Nat.le_trans h.2.1 h'.2.1, fun i hi hp name => ?_⟩
    refine (h'.2.2 i (Nat.lt_of_lt_of_le hi h.2.1) ?_ name).trans (h.2.2 i hi hp name)
    rwa [h.1]
  statement h := ⟨h.1, h.2.1, fun i hi _ => h.2.2 i hi nofun⟩
  ordinary _ := trivial
  outOfFuel := trivial
  spend _ hs := ⟨hs, rfl, Nat.le_refl _, fun _ _ _ _ => rfl⟩
  lookup _ _ := Binding.hasLaws_of_forall (fun _ => trivial) _
  assign {s b} name hs _ := by
    refine ⟨hs, rfl, Session.size_le_assign s name b, fun i _ hp n => ?_⟩
    refine (Frames.find?_assign ..).trans (if_neg fun h => hp rfl h.1)
  inside _ := trivial
  closure {s shape f} hs hf := ⟨trivial, hR shape f ((show s.registry = R from hs) ▸ hf)⟩
  keep _ _ := trivial
  enter hs _ := hs
  leave {s scope t} _ ht h := by
    refine ⟨ht, rfl, Nat.le_trans (Session.size_le_enter s scope) h.2.1, fun i hi _ name => ?_⟩
    refine (h.2.2 i (Nat.lt_of_lt_of_le hi (Session.size_le_enter s scope))
      (fun _ => Nat.ne_of_lt hi) name).trans ?_
    exact Frames.find?_extend s.frames scope i name
  down hs := hs
  up {s scope t u} _ h hu h' := by
    have hle := Session.size_le_enter s scope
    refine ⟨hu, rfl, Nat.le_trans hle (Nat.le_trans h.2.1 h'.2.1), fun i hi _ name => ?_⟩
    have hi' : i < (s.enter scope).frames.size := Nat.lt_of_lt_of_le hi hle
    refine (h'.2.2 i (Nat.lt_of_lt_of_le hi' h.2.1) (fun _ => ?_) name).trans
      ((h.2.2 i hi' (fun _ => Nat.ne_of_lt hi) name).trans (Frames.find?_extend s.frames scope i name))
    exact h.1 ▸ Nat.ne_of_lt hi
  declare _ hdeclare _ := absurd hdeclare (hnode _ _)
  certain _ := trivial
  die _ := trivial
  operate _ _ _ := trivial
  sum _ _ _ := trivial
  dice _ _ _ _ _ := trivial
  maximum _ _ := trivial
  branch _ _ _ := trivial

end Contract

end DiceCalculus
