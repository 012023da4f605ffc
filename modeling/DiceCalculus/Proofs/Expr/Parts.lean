import Mathlib.Tactic.Lemma
import DiceCalculus.Meaning.Eval

set_option autoImplicit false
set_option relaxedAutoImplicit false

/-!
# The parts of an expression

An expression is made of others, and what holds of an expression once it holds of its parts holds
of every expression.

## Main definitions

* `Expr.parts` — the expressions that an expression is made of.
* `Expr.Every` — a predicate that holds of every expression inside an expression.

## Main results

* `Expr.induction_parts` — induction over expressions by their parts.
* `Expr.every_iff` — what holds inside an expression holds of it and inside its parts; with a lemma for
  every form.
* `Expr.denote_call`, `Expr.denoteAll_eq_map` — the meanings of the parts are those of a list.
* `Expr.stored_sample_eq` — a sampled expression is stored as its value.
* `Slots.mem_items_of_nth`, `Slots.mem_items_of_firstOf`, `Slots.mem_items_of_mem_zip` — what a
  call makes of an argument is said about one of its items.
-/

namespace DiceCalculus

universe u v

variable {ρ μ : Type}

/-! ## Items of a layout -/

/-- What is found under a keyword is listed under it. -/
lemma mem_of_lookup {α : Type u} {gs : List (String × α)} {keyword : String} {a : α}
    (h : gs.lookup keyword = some a) : (keyword, a) ∈ gs := by
  obtain ⟨gs, gs', rfl, -⟩ := List.lookup_eq_some_iff.1 h
  exact List.mem_append_right _ List.mem_cons_self

/-- What is found under a keyword after a function was applied under each. -/
lemma lookup_map {α : Type u} {β : Type v} (f : α → β) (gs : List (String × α)) (keyword : String) :
    (gs.map fun g => (g.1, f g.2)).lookup keyword = (gs.lookup keyword).map f := by
  induction gs with
  | nil => rfl
  | cons g gs ih =>
    rw [List.map_cons, List.lookup_cons, List.lookup_cons, ih]
    split <;> rfl

namespace Slots

variable {α β : Type}

/-- The items of a layout with a function applied to every item. -/
lemma items_map (f : α → β) (s : Slots α) : (s.map f).items = s.items.map f := by
  simp [items, map, List.map_flatMap, List.flatMap_map]

/-- The items of a layout are the positional ones and then those of the groups. -/
@[simp] lemma items_mk (xs : List α) (gs : List (String × List α)) :
    (mk xs gs).items = xs ++ gs.flatMap (·.2) := rfl

/-- The items of a layout without keywords. -/
@[simp] lemma items_ofList (xs : List α) : (ofList xs).items = xs := List.append_nil xs

/-- The group under a keyword is a part of the layout. -/
lemma mem_of_group? {s : Slots α} {keyword : String} {xs : List α}
    (h : s.group? keyword = some xs) : (keyword, xs) ∈ s.keywords := mem_of_lookup h

/-- Items of a group are items of the layout. -/
lemma mem_items_of_mem_group {s : Slots α} {keyword : String} {xs : List α} {a : α}
    (h : s.group? keyword = some xs) (ha : a ∈ xs) : a ∈ s.items :=
  List.mem_append_right _ (List.mem_flatMap.2 ⟨_, mem_of_group? h, ha⟩)

/-- An argument at a position is one of the items. -/
theorem mem_items_of_nth {s : Slots α} {position : Nat} {a : α}
    (h : s.nth (ρ := ρ) (μ := μ) position = .ok a) : a ∈ s.items := by
  unfold nth at h
  split at h
  · next ha => exact Except.ok.inj h ▸ List.mem_append_left _ (List.mem_of_getElem? ha)
  · cases h

/-- The first argument under a keyword is one of the items. -/
theorem mem_items_of_firstOf {s : Slots α} {keyword : String} {a : α}
    (h : s.firstOf (ρ := ρ) (μ := μ) keyword = .ok a) : a ∈ s.items := by
  unfold firstOf at h
  split at h
  · next hg => exact mem_items_of_mem_group hg (Except.ok.inj h ▸ List.mem_cons_self)
  · cases h

/-- The second item of a pair of two layouts is an item of the second layout. -/
theorem mem_items_of_mem_zip {s : Slots α} {t : Slots β} {p : α × β} (h : p ∈ s.zip t) :
    p.2 ∈ t.items := by
  rcases List.mem_append.1 h with h | h
  · exact List.mem_append_left _ (List.of_mem_zip h).2
  · obtain ⟨g, _, h⟩ := List.mem_flatMap.1 h
    split at h
    · next hg => exact mem_items_of_mem_group hg (List.of_mem_zip h).2
    · cases h

/-- An item of a layout is smaller than the layout. -/
lemma sizeOf_lt_of_mem_items [SizeOf α] {s : Slots α} {a : α} (h : a ∈ s.items) :
    sizeOf a < sizeOf s := by
  obtain ⟨xs, gs⟩ := s
  simp only [items, List.mem_append, List.mem_flatMap] at h
  show sizeOf a < 1 + sizeOf xs + sizeOf gs
  rcases h with h | ⟨⟨k, ys⟩, hg, h⟩
  · have := List.sizeOf_lt_of_mem h
    omega
  · have hys : sizeOf a < sizeOf ys := List.sizeOf_lt_of_mem h
    have hgs := List.sizeOf_lt_of_mem hg
    have hpair : sizeOf (k, ys) = 1 + sizeOf k + sizeOf ys := rfl
    omega

end Slots

/-! ## Parts -/

namespace Expr

/-- The expressions that an expression is made of; those of a declaration are the statements of
the body. -/
def parts : Expr ρ → List (Expr ρ)
  | literal _ | var _ => []
  | binary _ left right => [left, right]
  | dice count sides => [count, sides]
  | sequence es | block es => es
  | assign _ e | output e => [e]
  | call _ arguments => arguments.items
  | declare _ body => body

/-- A part of an expression is smaller than the expression.

**Proof sketch.** By the form of the expression. A part that is a field is smaller, since the size
of the expression adds one to those of its fields; a part in a list or in slots is smaller than
these. -/
lemma sizeOf_lt_of_mem_parts {e part : Expr ρ} (h : part ∈ e.parts) :
    sizeOf part < sizeOf e := by
  cases e with
  | literal _ => cases h
  | var _ => cases h
  | binary op left right =>
    simp only [parts, List.mem_cons, List.not_mem_nil, or_false] at h
    rcases h with rfl | rfl <;> simp only [binary.sizeOf_spec] <;> omega
  | dice count sides =>
    simp only [parts, List.mem_cons, List.not_mem_nil, or_false] at h
    rcases h with rfl | rfl <;> simp only [dice.sizeOf_spec] <;> omega
  | sequence es =>
    have : sizeOf part < sizeOf es := List.sizeOf_lt_of_mem h
    simp only [sequence.sizeOf_spec]
    omega
  | assign name e =>
    obtain rfl := List.mem_singleton.1 h
    simp only [assign.sizeOf_spec]
    omega
  | call shape arguments =>
    have := Slots.sizeOf_lt_of_mem_items h
    simp only [call.sizeOf_spec]
    omega
  | block es =>
    have : sizeOf part < sizeOf es := List.sizeOf_lt_of_mem h
    simp only [block.sizeOf_spec]
    omega
  | output e =>
    obtain rfl := List.mem_singleton.1 h
    simp only [output.sizeOf_spec]
    omega
  | declare signature body =>
    have : sizeOf part < sizeOf body := List.sizeOf_lt_of_mem h
    simp only [declare.sizeOf_spec]
    omega

/-- What holds of an expression once it holds of all its parts holds of every expression. -/
theorem induction_parts {P : Expr ρ → Prop} (h : ∀ e, (∀ part ∈ e.parts, P part) → P e)
    (e : Expr ρ) : P e :=
  h e fun part _ => induction_parts h part
termination_by sizeOf e
decreasing_by exact sizeOf_lt_of_mem_parts ‹_›

/-- A predicate holds of an expression and of every expression inside it. -/
inductive Every (P : Expr ρ → Prop) : Expr ρ → Prop where
  /-- It holds of the expression itself, and inside all parts. -/
  | intro {e : Expr ρ} (self : P e) (parts : ∀ part ∈ e.parts, Every P part) : Every P e

/-- What holds inside an expression holds of the expression itself. -/
lemma Every.self {P : Expr ρ → Prop} {e : Expr ρ} (h : e.Every P) : P e := by
  obtain ⟨h, -⟩ := h
  exact h

/-- What holds inside an expression holds inside its parts. -/
lemma Every.of_mem_parts {P : Expr ρ → Prop} {e part : Expr ρ} (h : e.Every P)
    (hpart : part ∈ e.parts) : part.Every P := by
  obtain ⟨-, h⟩ := h
  exact h part hpart

/-- A predicate that holds of all expressions holds inside every expression. -/
lemma every_of_forall {P : Expr ρ → Prop} (h : ∀ e, P e) (e : Expr ρ) : e.Every P :=
  induction_parts (fun e ih => .intro (h e) ih) e

section Forms

variable {P : Expr ρ → Prop}

/-- A predicate holds inside an expression if it holds of the expression and inside its parts. -/
theorem every_iff {e : Expr ρ} : e.Every P ↔ P e ∧ ∀ part ∈ e.parts, part.Every P :=
  ⟨fun h => ⟨h.self, fun _ => h.of_mem_parts⟩, fun h => .intro h.1 h.2⟩

/-- A literal has no parts. -/
@[simp] lemma every_literal (x : Number ρ) : (literal x).Every P ↔ P (.literal x) :=
  every_iff.trans (and_iff_left nofun)

/-- A variable has no parts. -/
@[simp] lemma every_var (name : String) : (var name : Expr ρ).Every P ↔ P (.var name) :=
  every_iff.trans (and_iff_left nofun)

/-- A predicate inside an operation and its two operands. -/
@[simp] lemma every_binary (op : Operator) (left right : Expr ρ) :
    (binary op left right).Every P ↔ P (.binary op left right) ∧ left.Every P ∧ right.Every P :=
  every_iff.trans (and_congr_right' (by simp [parts]))

/-- A predicate inside a roll and its two operands. -/
@[simp] lemma every_dice (count sides : Expr ρ) :
    (dice count sides).Every P ↔ P (.dice count sides) ∧ count.Every P ∧ sides.Every P :=
  every_iff.trans (and_congr_right' (by simp [parts]))

/-- A predicate inside a sequence and its items. -/
@[simp] lemma every_sequence (es : List (Expr ρ)) :
    (sequence es).Every P ↔ P (.sequence es) ∧ ∀ e ∈ es, e.Every P := every_iff

/-- A predicate inside a block and its statements. -/
@[simp] lemma every_block (es : List (Expr ρ)) :
    (block es).Every P ↔ P (.block es) ∧ ∀ e ∈ es, e.Every P := every_iff

/-- A predicate inside an assignment and what is assigned. -/
@[simp] lemma every_assign (name : String) (e : Expr ρ) :
    (assign name e).Every P ↔ P (.assign name e) ∧ e.Every P :=
  every_iff.trans (and_congr_right' List.forall_mem_singleton)

/-- A predicate inside an output and what is output. -/
@[simp] lemma every_output (e : Expr ρ) : (output e).Every P ↔ P (.output e) ∧ e.Every P :=
  every_iff.trans (and_congr_right' List.forall_mem_singleton)

/-- A predicate inside a declaration and its body. -/
@[simp] lemma every_declare (signature : Signature) (body : List (Expr ρ)) :
    (declare signature body).Every P ↔ P (.declare signature body) ∧ ∀ e ∈ body, e.Every P :=
  every_iff

/-- A predicate inside a call and its arguments. -/
@[simp] lemma every_call (shape : Shape) (arguments : Slots (Expr ρ)) :
    (call shape arguments).Every P ↔ P (.call shape arguments) ∧ ∀ e ∈ arguments.items, e.Every P :=
  every_iff

/-- A predicate inside a call by name and its arguments. -/
@[simp] lemma every_ofCall (name : String) (arguments : Slots (Expr ρ)) :
    (ofCall name arguments).Every P ↔
      P (.ofCall name arguments) ∧ ∀ e ∈ arguments.items, e.Every P := every_iff

end Forms

/-! ## Meanings of the parts -/

variable [Scalar ρ] [Mass μ]

/-- The meanings of a list of expressions, one by one. -/
theorem denoteAll_eq_map (enter : Enter ρ μ) (es : List (Expr ρ)) :
    denoteAll enter es = es.map (denote enter) := by
  induction es with
  | nil => rfl
  | cons e es ih => rw [denoteAll, ih, List.map_cons]

/-- The meanings of groups of expressions, one by one. -/
lemma denoteGroups_eq_map (enter : Enter ρ μ) (gs : List (String × List (Expr ρ))) :
    denoteGroups enter gs = gs.map fun g => (g.1, g.2.map (denote enter)) := by
  induction gs with
  | nil => rfl
  | cons g gs ih => rw [denoteGroups, ih, denoteAll_eq_map, List.map_cons]

/-- The meaning of a call is a call of the meanings of its arguments. -/
theorem denote_call (enter : Enter ρ μ) (shape : Shape) (arguments : Slots (Expr ρ)) :
    (call shape arguments).denote enter = .call enter shape (arguments.map (denote enter)) := by
  obtain ⟨es, gs⟩ := arguments
  rw [denote, denoteAll_eq_map, denoteGroups_eq_map]
  rfl

/-- With any amount of fuel, an expression has a meaning given how bodies are run. -/
lemma exists_meaning_eq_denote (fuel : Nat) :
    ∃ enter : Enter ρ μ, ∀ e : Expr ρ, e.meaning fuel = e.denote enter := by
  cases fuel with
  | zero => exact ⟨_, fun _ => rfl⟩
  | succ fuel => exact ⟨_, fun _ => rfl⟩

/-- A sampled expression stores its value. -/
theorem stored_sample_eq (enter : Enter ρ μ) (e : Expr ρ) : (e.denote enter).stored .sample =
    (e.denote enter).value >>= fun v => pure (.value v) := by
  cases e with
  | call shape args =>
    obtain ⟨es, gs⟩ := args
    rfl
  | _ => rfl

end Expr

end DiceCalculus
