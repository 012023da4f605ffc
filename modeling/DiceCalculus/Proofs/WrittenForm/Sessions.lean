import DiceCalculus.Proofs.Expr.Parts
import DiceCalculus.Proofs.Sessions
import DiceCalculus.Proofs.WrittenForm.Laws

set_option autoImplicit false
set_option relaxedAutoImplicit false

/-!
# Sessions with numbers in other forms

Two sessions are the same up to written forms if their variables hold values that are, and the bodies of
their functions differ in the form of their literals only.

## Main definitions

* `Value.Same`, `Binding.Same` — values, and what variables hold.
* `Flow.Rel` — how statements hand over.
* `Function.Same`, `Session.Same` — functions and sessions.

## Main results

* `Expr.areSame_iff`, `Expr.groupsAreSame_iff` — expressions that are equal, one by one.
* `Binding.Same.toLaw`, `Binding.Same.toLaws` — what is read from a variable.
* `Session.Same.refl` — a session is the same as itself.
* `Session.Same.enter`, `Session.Same.assign`, `Session.Same.declare` — sessions stay the same when
  both make a frame, bind a name, or declare a function.
-/

namespace DiceCalculus

variable {ρ μ α β : Type} [Scalar ρ]

/-! ## Values -/

/-- Values that are built alike of numbers that compare equal and of laws that are the same. -/
inductive Value.Same : Value ρ μ → Value ρ μ → Prop where
  /-- Numbers that compare equal. -/
  | number {x x' : Number ρ} (h : compare x x' = .eq) : Same (.number x) (.number x')
  /-- Sequences with the same items one by one. -/
  | sequence {vs vs' : List (Value ρ μ)} (h : List.Forall₂ Same vs vs') :
    Same (.sequence vs) (.sequence vs')
  /-- Laws with the same masses at outcomes that compare equal. -/
  | law {l l' : Law ρ μ} (h : l.Same l') : Same (.law l) (.law l')

mutual

/-- A value is the same as itself. -/
lemma Value.same_refl : (v : Value ρ μ) → v.Same v
  | .number _ => .number Std.ReflCmp.compare_self
  | .sequence vs => .sequence (Value.forall₂_same_refl vs)
  | .law l => .law (.refl l)

/-- The items of a list are the same as themselves. -/
lemma Value.forall₂_same_refl : (vs : List (Value ρ μ)) → List.Forall₂ Value.Same vs vs
  | [] => .nil
  | v :: vs => .cons (Value.same_refl v) (Value.forall₂_same_refl vs)

end

namespace Value.Same

variable {v v' : Value ρ μ} (h : v.Same v')

include h

/-- Values that are the same, as numbers. -/
lemma toNumber :
    Except.Rel Fault.Same (fun x x' => compare x x' = .eq) v.toNumber v'.toNumber := by
  cases h with
  | number h => exact .ok h
  | sequence h => exact .error (.refl _)
  | law h => exact .error (.refl _)

/-- Values that are the same, as lists of items. -/
lemma items : List.Forall₂ Same v.items v'.items := by
  cases h with
  | number h => exact .cons (.number h) .nil
  | sequence h => exact h
  | law h => exact .cons (.law h) .nil

/-- Values that are the same, as laws. -/
lemma toLaw [Mass μ] : Except.Rel Fault.Same Law.Same v.toLaw v'.toLaw := by
  cases h with
  | number h => exact .ok (Law.same_certain h)
  | sequence h => exact .error (.refl _)
  | law h => exact .ok h

end Value.Same

/-- Laws that are the same are so as values. -/
lemma Value.forall₂_same_law {ls ls' : List (Law ρ μ)} (h : List.Forall₂ Law.Same ls ls') :
    List.Forall₂ Value.Same (ls.map .law) (ls'.map .law) := List.rel_map (fun _ _ => .law) h

/-! ## Bindings -/

/-- What variables hold, in the same way. -/
inductive Binding.Same : Binding ρ μ → Binding ρ μ → Prop where
  /-- Values that are the same. -/
  | value {v v' : Value ρ μ} (h : v.Same v') : Same (.value v) (.value v')
  /-- Laws that are the same. -/
  | law {l l' : Law ρ μ} (h : l.Same l') : Same (.law l) (.law l')
  /-- Laws that are the same, one by one. -/
  | laws {ls ls' : List (Law ρ μ)} (h : List.Forall₂ Law.Same ls ls') : Same (.laws ls) (.laws ls')

/-- What a variable holds is the same as itself. -/
lemma Binding.same_refl (b : Binding ρ μ) : b.Same b := by
  cases b with
  | value v => exact .value (Value.same_refl v)
  | law l => exact .law (.refl l)
  | laws ls => exact .laws (List.forall₂_same.2 fun l _ => .refl l)

namespace Binding.Same

variable {b b' : Binding ρ μ} (h : b.Same b')

include h

/-- What variables hold, as values. -/
lemma toValue : b.toValue.Same b'.toValue := by
  cases h with
  | value h => exact h
  | law h => exact .law h
  | laws h => exact .sequence (Value.forall₂_same_law h)

/-- What variables hold, as lists of values. -/
lemma items : List.Forall₂ Value.Same b.items b'.items := by
  cases h with
  | value h => exact h.items
  | law h => exact .cons (.law h) .nil
  | laws h => exact Value.forall₂_same_law h

variable [Mass μ]

/-- What variables hold, as laws. -/
theorem toLaw : Except.Rel Fault.Same Law.Same b.toLaw b'.toLaw := by
  cases h with
  | value h => exact h.toLaw
  | law h => exact .ok h
  | laws h => exact .error (.refl _)

/-- What variables hold, as lists of laws. -/
theorem toLaws : Except.Rel Fault.Same (List.Forall₂ Law.Same) b.toLaws b'.toLaws := by
  cases h with
  | value h => exact .mapM h.items fun _ _ hv => hv.toLaw
  | law h => exact .ok (.cons h .nil)
  | laws h => exact .ok h

end Binding.Same

/-! ## Statements -/

/-- Statements hand over in the same way, with related values. -/
inductive Flow.Rel (R : α → β → Prop) : Flow α → Flow β → Prop where
  /-- The next statement follows. -/
  | next {a : Option α} {b : Option β} (h : Option.Rel R a b) : Rel R (.next a) (.next b)
  /-- The statements around are ended. -/
  | ended {a : α} {b : β} (h : R a b) : Rel R (.ended a) (.ended b)

/-- The values of blocks whose statements end in the same way. -/
lemma Flow.Rel.result {R : α → β → Prop} {f : Flow α} {g : Flow β} (h : f.Rel R g) :
    Except.Rel (Fault.Same (ρ := ρ) (μ := μ)) R f.result g.result := by
  cases h with
  | next h =>
    cases h with
    | none => exact .error (.refl _)
    | some h => exact .ok h
  | ended h => exact .ok h

/-! ## Expressions and functions -/

namespace Expr

/-- Lists of expressions are equal if their items are, one by one. -/
theorem areSame_iff {es es' : List (Expr ρ)} :
    areSame es es' = true ↔ List.Forall₂ (fun e e' => e.isSame e' = true) es es' := by
  induction es generalizing es' with
  | nil => cases es' <;> simp [areSame]
  | cons e es ih => cases es' <;> simp [areSame, ih]

/-- Lists of groups are equal if their keywords are the same and their items equal. -/
theorem groupsAreSame_iff {gs gs' : List (String × List (Expr ρ))} :
    groupsAreSame gs gs' = true ↔ List.Forall₂ (fun g g' => g.1 = g'.1 ∧
      List.Forall₂ (fun e e' => e.isSame e' = true) g.2 g'.2) gs gs' := by
  induction gs generalizing gs' with
  | nil => cases gs' <;> simp [groupsAreSame]
  | cons g gs ih =>
    obtain ⟨k, es⟩ := g
    cases gs' with
    | nil => simp [groupsAreSame]
    | cons g' gs' => simp [groupsAreSame, ih, areSame_iff]

/-- An expression is equal to itself. -/
lemma isSame_self (e : Expr ρ) : e.isSame e = true := by
  have hlist {es : List (Expr ρ)} (h : ∀ e ∈ es, e.isSame e = true) : areSame es es = true :=
    areSame_iff.2 (List.forall₂_same.2 h)
  induction e using induction_parts with
  | h e ih =>
    cases e with
    | literal x =>
      show (compare x x == .eq) = true
      exact beq_iff_eq.2 Std.ReflCmp.compare_self
    | binary op left right => simp [isSame, ih left (by simp [parts]), ih right (by simp [parts])]
    | dice count sides => simp [isSame, ih count (by simp [parts]), ih sides (by simp [parts])]
    | sequence es => exact hlist ih
    | var name => exact beq_self_eq_true name
    | assign name e => simp [isSame, ih e (by simp [parts])]
    | call shape arguments =>
      obtain ⟨es, gs⟩ := arguments
      have hes : areSame es es = true := hlist fun e he => ih e (List.mem_append_left _ he)
      have hgs : groupsAreSame gs gs = true := by
        refine groupsAreSame_iff.2 (List.forall₂_same.2 fun g hg => ⟨rfl, ?_⟩)
        exact List.forall₂_same.2 fun e he =>
          ih e (List.mem_append_right _ (List.mem_flatMap.2 ⟨g, hg, he⟩))
      simp [isSame, hes, hgs]
    | block es => exact hlist ih
    | output e => exact ih e (by simp [parts])
    | declare signature body =>
      have hbody : areSame body body = true := hlist ih
      simp [isSame, hbody]

end Expr

/-- Functions with bodies that are equal. -/
inductive Function.Same : Function ρ → Function ρ → Prop where
  /-- A built-in function. -/
  | builtin (b : Builtin) : Same (.builtin b) (.builtin b)
  /-- A declared function. -/
  | user {signature : Signature} {body body' : List (Expr ρ)} {scope : Scope}
    (h : List.Forall₂ (fun e e' => e.isSame e' = true) body body') :
    Same (.user ⟨signature, body, scope⟩) (.user ⟨signature, body', scope⟩)

/-! ## Sessions -/

/-- Sessions that are the same up to the forms of the numbers in what variables hold and in the bodies
of functions. -/
structure Session.Same (s s' : Session ρ μ) : Prop where
  /-- The limits are the same. -/
  limits : s.limits = s'.limits
  /-- The same functions are registered. -/
  functions : ∀ shape, Option.Rel Function.Same (s.registry.find? shape) (s'.registry.find? shape)
  /-- The scope is the same. -/
  scope : s.scope = s'.scope
  /-- There are as many frames. -/
  size : s.frames.size = s'.frames.size
  /-- The variables of each frame hold the same. -/
  frames : ∀ i name, Option.Rel Binding.Same (s.frames.find? i name) (s'.frames.find? i name)
  /-- As many dice were asked for. -/
  spent : s.spent = s'.spent
  /-- As many calls are under way. -/
  depth : s.depth = s'.depth

/-- A function is the same as itself. -/
lemma Function.same_refl (f : Function ρ) : f.Same f := by
  cases f with
  | builtin b => exact .builtin b
  | user c => exact .user (List.forall₂_same.2 fun e _ => e.isSame_self)

/-- What is optional is related to itself if the items of a type are. -/
lemma Option.rel_refl {R : α → α → Prop} (h : ∀ a, R a a) (o : Option α) : Option.Rel R o o := by
  cases o with
  | none => exact .none
  | some a => exact .some (h a)

namespace Session.Same

/-- A session is the same as itself. -/
theorem refl (s : Session ρ μ) : s.Same s where
  limits := rfl
  functions _ := Option.rel_refl Function.same_refl _
  scope := rfl
  size := rfl
  frames _ _ := Option.rel_refl Binding.same_refl _
  spent := rfl
  depth := rfl

variable {s s' : Session ρ μ} (h : s.Same s')

include h

/-- What a name is bound to. -/
lemma lookup? (name : String) :
    Option.Rel Binding.Same (s.frames.lookup? s.scope name) (s'.frames.lookup? s'.scope name) := by
  rw [h.scope]
  exact Frames.findFirst?_rel (List.forall₂_same.2 fun i _ => h.frames i name)

/-- Sessions in the same scope. -/
lemma inScope (scope : Scope) : (s.inScope scope).Same (s'.inScope scope) := { h with scope := rfl }

/-- One call deeper. -/
lemma down (scope : Scope) : (s.down scope).Same (s'.down scope) :=
  { h with scope := rfl, depth := congrArg (· + 1) h.depth }

/-- Back from a call. -/
lemma up (scope : Scope) : (s.up scope).Same (s'.up scope) :=
  { h with scope := rfl, depth := congrArg (· - 1) h.depth }

/-- Dice that are asked for. -/
lemma spend (count : Nat) :
    ({ s with spent := s.spent + count } : Session ρ μ).Same { s' with spent := s'.spent + count } :=
  { h with spent := congrArg (· + count) h.spent }

/-- A new evaluation. -/
lemma renewed : s.renewed.Same s'.renewed := { h with spent := rfl, depth := rfl }

/-- A fresh frame. -/
theorem enter (scope : Scope) : (s.enter scope).Same (s'.enter scope) where
  limits := h.limits
  functions := h.functions
  scope := congrArg (Scope.mk · scope.chain) h.size
  size := by
    show (s.frames.extend scope).2.size = (s'.frames.extend scope).2.size
    rw [Frames.size_extend, Frames.size_extend, h.size]
  frames i name := by
    show Option.Rel _ ((s.frames.extend scope).2.find? i name) ((s'.frames.extend scope).2.find? i name)
    rw [Frames.find?_extend, Frames.find?_extend]
    exact h.frames i name
  spent := h.spent
  depth := h.depth

/-- A name that is bound in a scope. -/
lemma assignIn {scope scope' : Scope} (hscope : scope = scope') (name : String)
    {b b' : Binding ρ μ} (hb : b.Same b') :
    ({ s with frames := s.frames.assign scope name b } : Session ρ μ).Same
      { s' with frames := s'.frames.assign scope' name b' } where
  limits := h.limits
  functions := h.functions
  scope := h.scope
  size := by
    show (s.frames.assign scope name b).size = (s'.frames.assign scope' name b').size
    rw [Frames.size_assign, Frames.size_assign, h.size]
  frames i n := by
    show Option.Rel _ ((s.frames.assign scope name b).find? i n)
      ((s'.frames.assign scope' name b').find? i n)
    rw [Frames.find?_assign, Frames.find?_assign, h.size, hscope]
    split
    · exact .some hb
    · exact h.frames i n
  spent := h.spent
  depth := h.depth

/-- A name that is bound. -/
theorem assign (name : String) {b b' : Binding ρ μ} (hb : b.Same b') :
    (s.assign name b).Same (s'.assign name b') := h.assignIn h.scope name hb

/-- A global variable that is bound. -/
lemma bindGlobal (name : String) {b b' : Binding ρ μ} (hb : b.Same b') :
    (s.bindGlobal name b).Same (s'.bindGlobal name b') := h.assignIn rfl name hb

/-- Names that are bound. -/
lemma assignAll {bs bs' : List (String × Binding ρ μ)}
    (hbs : List.Forall₂ (fun b b' => b.1 = b'.1 ∧ Binding.Same b.2 b'.2) bs bs') :
    (s.assignAll bs).Same (s'.assignAll bs') := by
  induction hbs generalizing s s' with
  | nil => exact h
  | @cons b b' _ _ hb _ ih =>
    obtain ⟨name, b⟩ := b
    obtain ⟨name', b'⟩ := b'
    obtain ⟨rfl, hb⟩ := hb
    exact ih (h.assign name hb)

/-- A function that is declared. -/
theorem declare (signature : Signature) {body body' : List (Expr ρ)}
    (hbody : List.Forall₂ (fun e e' => e.isSame e' = true) body body') :
    ({ s with registry :=
        s.registry.insert signature.shape (.user ⟨signature, body, s.scope⟩) } : Session ρ μ).Same
      { s' with registry :=
        s'.registry.insert signature.shape (.user ⟨signature, body', s'.scope⟩) } := by
  refine { h with functions := fun shape => ?_ }
  show Option.Rel _ ((s.registry.insert _ _).find? shape) ((s'.registry.insert _ _).find? shape)
  rw [Dictionary.find?_insert, Dictionary.find?_insert, h.scope]
  split
  · exact .some (.user hbody)
  · exact h.functions shape

end Session.Same

end DiceCalculus
