import DiceCalculus.Proofs.Run.Exec

set_option autoImplicit false
set_option relaxedAutoImplicit false

/-!
# Reading a session after a change

## Main definitions

* `Frames.Holds` — a predicate that holds of everything a frame binds.

## Main results

* `Registry.eq_builtin_and_shape_of_standard` — the standard registry has built-in functions only, each
  under its own shape.
* `Frames.find?_assign` — a binding changes one name of one frame.
* `Frames.find?_extend` — a fresh frame binds nothing, and the other frames stay as they are.
* `Frames.lookup?_congr`, `Frames.findFirst?_rel` — a lookup reads the frames of the chain only, and
  finds what is related if they are.
-/

namespace DiceCalculus

variable {ρ μ : Type} [Scalar ρ]

section Standard

omit [Scalar ρ]

/-- A function of the standard registry is built in, and registered under its own shape. -/
theorem Registry.eq_builtin_and_shape_of_standard {shape : Shape} {f : Function ρ}
    (h : Registry.standard.find? shape = some f) : ∃ b, f = .builtin b ∧ b.shape = shape := by
  have hfold (bs : List Builtin) (r : Registry ρ)
      (hr : ∀ f, r.find? shape = some f → ∃ b, f = .builtin b ∧ b.shape = shape) :
      ∀ f, (bs.foldl (fun r b => r.insert b.shape (.builtin b)) r).find? shape = some f →
        ∃ b, f = .builtin b ∧ b.shape = shape := by
    induction bs generalizing r with
    | nil => exact hr
    | cons b bs ih =>
      refine ih _ fun f hf => ?_
      rw [Dictionary.find?_insert] at hf
      split at hf
      · next hshape => exact ⟨b, (Option.some_inj.1 hf).symm, hshape⟩
      · exact hr f hf
  exact hfold Builtin.all .empty nofun f h

/-- No declared function is in the standard registry. -/
lemma Registry.find?_standard_ne_user (shape : Shape) (c : Closure ρ) :
    Registry.standard.find? shape ≠ some (.user c) := by
  intro h
  obtain ⟨b, hb, -⟩ := eq_builtin_and_shape_of_standard h
  cases hb

/-- A function that is registered besides the standard ones is the only declared one. -/
lemma Registry.eq_of_find?_insert_standard {shape shape' : Shape} {c c' : Closure ρ}
    (h : (Registry.standard.insert shape (.user c)).find? shape' = some (.user c')) : c' = c := by
  rw [Dictionary.find?_insert] at h
  split at h
  · exact (Function.user.inj (Option.some_inj.1 h)).symm
  · exact absurd h (find?_standard_ne_user shape' c')

end Standard

namespace Frames

variable {fs gs : Frames ρ μ} {scope : Scope}

/-- A name of a frame that was not made is not bound. -/
lemma find?_of_size_le {i : Nat} (h : fs.size ≤ i) (name : String) : fs.find? i name = none := by
  unfold find?
  rw [Array.getElem?_eq_none h]
  rfl

/-- Binding a name makes no frame. -/
@[simp] lemma size_assign (fs : Frames ρ μ) (scope : Scope) (name : String) (b : Binding ρ μ) :
    (fs.assign scope name b).size = fs.size := Array.size_modify

/-- A fresh frame is one more. -/
@[simp] lemma size_extend (fs : Frames ρ μ) (scope : Scope) :
    (fs.extend scope).2.size = fs.size + 1 := Array.size_push _

/-- A fresh frame lies inside the scope for which it was made. -/
@[simp] lemma chain_extend (fs : Frames ρ μ) (scope : Scope) :
    (fs.extend scope).1.chain = fs.size :: scope.chain := rfl

/-- Binding a name of a frame changes that name of that frame only. -/
theorem find?_assign (fs : Frames ρ μ) (scope : Scope) (name : String) (b : Binding ρ μ) (i : Nat)
    (n : String) : (fs.assign scope name b).find? i n =
      if i = scope.frame ∧ i < fs.size ∧ n = name then some b else fs.find? i n := by
  unfold find? assign size
  rw [Array.getElem?_modify]
  by_cases hi : i = scope.frame
  · subst hi
    by_cases hlt : scope.frame < fs.bindings.size
    · simp only [if_true, true_and, hlt, Array.getElem?_eq_getElem hlt, Option.map_some,
        Option.bind_some, Dictionary.find?_insert]
      by_cases hn : n = name
      · simp [hn]
      · rw [if_neg hn, if_neg fun h => hn h.symm]
    · simp [hlt]
  · rw [if_neg fun h => hi h.symm, if_neg fun h => hi h.1]

/-- A name that is bound in the innermost frame is found there. -/
lemma lookup?_assign_self (h : scope.frame < fs.size) (name : String) (b : Binding ρ μ) :
    (fs.assign scope name b).lookup? scope name = some b := by
  unfold lookup? Scope.chain findFirst?
  rw [find?_assign, if_pos ⟨rfl, h, rfl⟩]

/-- A fresh frame binds nothing, and the other frames stay as they are. -/
@[simp] theorem find?_extend (fs : Frames ρ μ) (scope : Scope) (i : Nat) (n : String) :
    (fs.extend scope).2.find? i n = fs.find? i n := by
  unfold find? extend
  rw [Array.getElem?_push]
  split
  · next h =>
    rw [h, Array.getElem?_eq_none (Nat.le_refl _)]
    rfl
  · rfl

/-- A lookup finds the same in frames that agree on the chain. -/
lemma findFirst?_congr {name : String} {chain : List Nat}
    (h : ∀ i ∈ chain, fs.find? i name = gs.find? i name) :
    fs.findFirst? name chain = gs.findFirst? name chain := by
  induction chain with
  | nil => rfl
  | cons i chain ih =>
    rw [List.forall_mem_cons] at h
    rw [findFirst?, findFirst?, h.1, ih h.2]

/-- A lookup finds the same in frames that agree on the chain of the scope. -/
theorem lookup?_congr {name : String} (h : ∀ i ∈ scope.chain, fs.find? i name = gs.find? i name) :
    fs.lookup? scope name = gs.lookup? scope name :=
  findFirst?_congr h

/-- The global frame of a new session binds nothing. -/
@[simp] lemma find?_initial (i : Nat) (name : String) :
    (initial : Frames ρ μ).find? i name = none := by
  cases i with
  | zero => rfl
  | succ i => exact find?_of_size_le (Nat.succ_le_succ (Nat.zero_le i)) name

/-- Nothing is found in the global frame of a new session. -/
lemma find?_initial_ne (i : Nat) (name : String) (b : Binding ρ μ) :
    (initial : Frames ρ μ).find? i name ≠ some b := by
  rw [find?_initial]
  exact nofun

/-- What is found in a chain is bound in one of its frames. -/
lemma exists_of_findFirst? {name : String} {chain : List Nat} {b : Binding ρ μ}
    (h : fs.findFirst? name chain = some b) : ∃ i ∈ chain, fs.find? i name = some b := by
  induction chain with
  | nil => cases h
  | cons i chain ih =>
    rw [findFirst?] at h
    split at h
    · next hb => exact ⟨i, List.mem_cons_self, hb.trans h⟩
    · obtain ⟨j, hj, hb⟩ := ih h
      exact ⟨j, List.mem_cons_of_mem _ hj, hb⟩

/-- If what the frames of two chains bind to a name is related one by one, so is what is found. -/
theorem findFirst?_rel {R : Binding ρ μ → Binding ρ μ → Prop} {name : String}
    {chain chain' : List Nat}
    (h : List.Forall₂ (fun i j => Option.Rel R (fs.find? i name) (gs.find? j name)) chain chain') :
    Option.Rel R (fs.findFirst? name chain) (gs.findFirst? name chain') := by
  induction h with
  | nil => exact .none
  | @cons i j chain chain' hij _ ih =>
    unfold findFirst?
    cases hi : fs.find? i name with
    | none =>
      cases hj : gs.find? j name with
      | none => exact ih
      | some b' => rw [hi, hj] at hij; cases hij
    | some b =>
      cases hj : gs.find? j name with
      | none => rw [hi, hj] at hij; cases hij
      | some b' => rwa [hi, hj] at hij

/-! ## What a frame binds -/

/-- A predicate holds of everything that a frame binds. -/
def Holds (P : Binding ρ μ → Prop) (fs : Frames ρ μ) (i : Nat) : Prop :=
  ∀ name b, fs.find? i name = some b → P b

variable {P : Binding ρ μ → Prop}

/-- A predicate of everything that is bound in a scope holds of what is found there. -/
lemma of_lookup? (h : ∀ i ∈ scope.chain, fs.Holds P i) {name : String} {b : Binding ρ μ}
    (hb : fs.lookup? scope name = some b) : P b := by
  obtain ⟨i, hi, hib⟩ := exists_of_findFirst? hb
  exact h i hi name b hib

/-- A new binding with a predicate keeps the predicate in every frame. -/
lemma Holds.assign {i : Nat} (h : fs.Holds P i) (scope : Scope) (name : String)
    {b : Binding ρ μ} (hb : P b) : (fs.assign scope name b).Holds P i := by
  intro n b' hb'
  rw [find?_assign] at hb'
  split at hb'
  · exact Option.some_inj.1 hb' ▸ hb
  · exact h n b' hb'

/-- A fresh frame keeps a predicate in every frame. -/
lemma holds_extend_iff (scope : Scope) {i : Nat} : (fs.extend scope).2.Holds P i ↔ fs.Holds P i := by
  unfold Holds
  simp only [find?_extend]

/-- A fresh frame has every predicate. -/
lemma holds_of_size_le {i : Nat} (h : fs.size ≤ i) : fs.Holds P i := fun name b hb => by
  rw [find?_of_size_le h] at hb
  cases hb

/-- A session in a fresh frame has the same bindings in every frame. -/
lemma holds_enter_iff {s : Session ρ μ} {i : Nat} :
    (s.enter scope).frames.Holds P i ↔ s.frames.Holds P i :=
  holds_extend_iff scope

end Frames

end DiceCalculus
