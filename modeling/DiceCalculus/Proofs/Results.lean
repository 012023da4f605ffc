import Mathlib.Data.List.Forall2

set_option autoImplicit false
set_option relaxedAutoImplicit false

/-!
# Calculations that may fail

A calculation in several steps has a result exactly if all of its steps have one.

## Main definitions

* `Ensures` — a calculation whose results and whose failures have properties.
* `Except.Rel` — two calculations whose results are related, or whose failures are.

## Main results

* `Except.bind_eq_ok_iff`, `Except.bind_eq_error_iff` — two steps in turn.
* `Except.mapM_eq_ok_iff`, `Except.mapM_eq_ok_iff_map`, `Except.mapM_eq_error_iff` — a step for every
  item of a list.
-/

namespace DiceCalculus

namespace Except

variable {α β ε : Type}

/-- Two steps in turn have a result if the first has one and the second has one from there. -/
theorem bind_eq_ok_iff {x : Except ε α} {f : α → Except ε β} {b : β} :
    x >>= f = .ok b ↔ ∃ a, x = .ok a ∧ f a = .ok b := by
  cases x with
  | error e => exact ⟨nofun, nofun⟩
  | ok a => exact ⟨fun h => ⟨a, rfl, h⟩, fun ⟨_, rfl, h⟩ => h⟩

/-- Two steps in turn fail if the first fails, or if the second fails from there. -/
theorem bind_eq_error_iff {x : Except ε α} {f : α → Except ε β} {e : ε} :
    x >>= f = .error e ↔ x = .error e ∨ ∃ a, x = .ok a ∧ f a = .error e := by
  cases x with
  | error e' =>
    refine ⟨fun h => .inl (congrArg Except.error (Except.error.inj h)), ?_⟩
    rintro (h | ⟨_, h, _⟩)
    · exact congrArg Except.error (Except.error.inj h)
    · cases h
  | ok a =>
    refine ⟨fun h => .inr ⟨a, rfl, h⟩, ?_⟩
    rintro (h | ⟨b, hb, h⟩)
    · cases h
    · cases hb
      exact h

/-- A result that is given has that value. -/
lemma pure_eq_ok_iff {a b : α} : (pure a : Except ε α) = .ok b ↔ a = b :=
  ⟨fun h => Except.ok.inj h, fun h => congrArg Except.ok h⟩

/-- The option of a calculation holds its result. -/
lemma toOption_eq_some_iff {x : Except ε α} {a : α} : x.toOption = some a ↔ x = .ok a := by
  cases x with
  | error e => exact ⟨nofun, nofun⟩
  | ok b => exact ⟨fun h => congrArg Except.ok (Option.some_inj.1 h), fun h => by rw [h]; rfl⟩

/-- A calculation has a result if its option holds one. -/
lemma exists_eq_ok_of_isSome {x : Except ε α} (h : x.toOption.isSome = true) :
    ∃ a, x = .ok a :=
  (Option.isSome_iff_exists.1 h).imp fun _ => toOption_eq_some_iff.1

/-- A function of a result has a value if there is a result. -/
lemma map_eq_ok_iff {x : Except ε α} {f : α → β} {b : β} :
    f <$> x = .ok b ↔ ∃ a, x = .ok a ∧ f a = b := by
  cases x with
  | error e => exact ⟨nofun, nofun⟩
  | ok a => exact ⟨fun h => ⟨a, rfl, Except.ok.inj h⟩, fun ⟨_, rfl, h⟩ => congrArg Except.ok h⟩

/-- A step for every item of a list has a list of results if it has one for every item. -/
theorem mapM_eq_ok_iff {f : α → Except ε β} {as : List α} {bs : List β} :
    as.mapM f = .ok bs ↔ List.Forall₂ (fun a b => f a = .ok b) as bs := by
  induction as generalizing bs with
  | nil =>
    rw [List.mapM_nil, List.forall₂_nil_left_iff, pure_eq_ok_iff]
    exact eq_comm
  | cons a as ih =>
    simp only [List.mapM_cons, bind_eq_ok_iff, pure_eq_ok_iff, ih, List.forall₂_cons_left_iff]
    constructor
    · rintro ⟨b, hb, bs, hbs, rfl⟩
      exact ⟨b, bs, hb, hbs, rfl⟩
    · rintro ⟨b, bs, hb, hbs, rfl⟩
      exact ⟨b, hb, bs, hbs, rfl⟩

/-- If a step for every item of a list has results, each item has one of them. -/
lemma exists_of_mapM_eq_ok {f : α → Except ε β} {as : List α} {bs : List β}
    (h : as.mapM f = .ok bs) : ∀ a ∈ as, ∃ b ∈ bs, f a = .ok b := by
  rw [mapM_eq_ok_iff] at h
  induction h with
  | nil => simp
  | cons hab _ ih =>
    refine List.forall_mem_cons.2 ⟨⟨_, List.mem_cons_self, hab⟩, fun a ha => ?_⟩
    obtain ⟨b, hb, hab⟩ := ih a ha
    exact ⟨b, List.mem_cons_of_mem _ hb, hab⟩

/-- If a step for every item of a list has results, each of them is that of an item. -/
lemma exists_of_mem_mapM {f : α → Except ε β} {as : List α} {bs : List β}
    (h : as.mapM f = .ok bs) : ∀ b ∈ bs, ∃ a ∈ as, f a = .ok b := by
  rw [mapM_eq_ok_iff] at h
  induction h with
  | nil => simp
  | cons hab _ ih =>
    refine List.forall_mem_cons.2 ⟨⟨_, List.mem_cons_self, hab⟩, fun b hb => ?_⟩
    obtain ⟨a, ha, hab⟩ := ih b hb
    exact ⟨a, List.mem_cons_of_mem _ ha, hab⟩

/-- A step that has a value at every item of a list gives the list of these values. -/
lemma mapM_eq_ok_map {f : α → Except ε β} {g : α → β} {as : List α}
    (h : ∀ a ∈ as, f a = .ok (g a)) : as.mapM f = .ok (as.map g) := by
  rw [mapM_eq_ok_iff, List.forall₂_map_right_iff, List.forall₂_same]
  exact h

/-- A step for every item of a list fails if it fails at an item and has results at those before it. -/
theorem mapM_eq_error_iff {f : α → Except ε β} {as : List α} {e : ε} :
    as.mapM f = .error e ↔ ∃ before a after, as = before ++ a :: after ∧
      (∀ x ∈ before, ∃ b, f x = .ok b) ∧ f a = .error e := by
  induction as with
  | nil =>
    rw [List.mapM_nil]
    refine ⟨nofun, ?_⟩
    rintro ⟨before, a, after, h, -⟩
    cases List.append_ne_nil_of_right_ne_nil before (List.cons_ne_nil a after) h.symm
  | cons a as ih =>
    simp only [List.mapM_cons, bind_eq_error_iff, ih, List.cons_eq_append_iff]
    constructor
    · rintro (h | ⟨b, hb, ⟨before, x, after, rfl, hbefore, hx⟩ | ⟨_, _, h⟩⟩)
      · exact ⟨[], a, as, .inl ⟨rfl, rfl⟩, nofun, h⟩
      · exact ⟨a :: before, x, after, .inr ⟨before, rfl, rfl⟩,
          List.forall_mem_cons.2 ⟨⟨b, hb⟩, hbefore⟩, hx⟩
      · cases h
    · rintro ⟨before, x, after, ⟨rfl, h⟩ | ⟨before, rfl, rfl⟩, hbefore, hx⟩
      · cases h
        exact .inl hx
      · obtain ⟨⟨b, hb⟩, hbefore⟩ := List.forall_mem_cons.1 hbefore
        exact .inr ⟨b, hb, .inl ⟨before, x, after, rfl, hbefore, hx⟩⟩

/-- A step for every item of a list has results exactly if it has one at every item. -/
lemma exists_mapM_eq_ok_iff {f : α → Except ε β} {as : List α} :
    (∃ bs, as.mapM f = .ok bs) ↔ ∀ a ∈ as, ∃ b, f a = .ok b := by
  constructor
  · rintro ⟨bs, h⟩ a ha
    obtain ⟨b, -, hb⟩ := exists_of_mapM_eq_ok h a ha
    exact ⟨b, hb⟩
  · intro h
    cases hbs : as.mapM f with
    | ok bs => exact ⟨bs, rfl⟩
    | error e =>
      obtain ⟨before, a, after, rfl, -, ha⟩ := mapM_eq_error_iff.1 hbs
      obtain ⟨b, hb⟩ := h a (List.mem_append_right before List.mem_cons_self)
      cases ha.symm.trans hb

/-- The result of a calculation that has one, whatever stands for it otherwise. -/
lemma getD_toOption {x : Except ε α} {a : α} (h : x = .ok a) (d : α) :
    x.toOption.getD d = a := by
  rw [h]
  rfl

/-- A step for every item of a list has results exactly if it has one at every item, and they are
those. -/
theorem mapM_eq_ok_iff_map (d : β) {f : α → Except ε β} {as : List α} {bs : List β} :
    as.mapM f = .ok bs ↔
      (∀ a ∈ as, ∃ b, f a = .ok b) ∧ bs = as.map fun a => (f a).toOption.getD d := by
  have hmap (h : ∀ a ∈ as, ∃ b, f a = .ok b) :
      as.mapM f = .ok (as.map fun a => (f a).toOption.getD d) := by
    refine mapM_eq_ok_map fun a ha => ?_
    obtain ⟨b, hb⟩ := h a ha
    rw [getD_toOption hb, hb]
  constructor
  · intro h
    have hall : ∀ a ∈ as, ∃ b, f a = .ok b := fun a ha => by
      obtain ⟨b, _, hb⟩ := exists_of_mapM_eq_ok h a ha
      exact ⟨b, hb⟩
    exact ⟨hall, Except.ok.inj (h.symm.trans (hmap hall))⟩
  · rintro ⟨hall, rfl⟩
    exact hmap hall

end Except

/-! ## What a calculation comes to -/

/-- The results of a calculation have a property, and so have its failures. -/
def Ensures {ε α : Type} (Q : α → Prop) (F : ε → Prop) : Except ε α → Prop
  | .ok a => Q a
  | .error e => F e

namespace Ensures

variable {α β ε : Type} {Q : α → Prop} {R : β → Prop} {F : ε → Prop} {x : Except ε α}

/-- Two steps in turn. -/
lemma bind (hx : Ensures Q F x) {f : α → Except ε β} (hf : ∀ a, Q a → Ensures R F (f a)) :
    Ensures R F (x >>= f) := by
  cases x with
  | error e => exact hx
  | ok a => exact hf a hx

/-- A function of a result. -/
lemma map (hx : Ensures Q F x) {f : α → β} (hf : ∀ a, Q a → R (f a)) : Ensures R F (f <$> x) := by
  cases x with
  | error e => exact hx
  | ok a => exact hf a hx

/-- Weaker properties. -/
lemma mono {Q' : α → Prop} {F' : ε → Prop} (hx : Ensures Q F x) (hQ : ∀ a, Q a → Q' a)
    (hF : ∀ e, F e → F' e) : Ensures Q' F' x := by
  cases x with
  | error e => exact hF e hx
  | ok a => exact hQ a hx

/-- Another property of the results, read off the result itself. -/
lemma of_ok {Q' : α → Prop} (hx : Ensures Q F x) (h : ∀ a, x = .ok a → Q' a) : Ensures Q' F x := by
  cases x with
  | error e => exact hx
  | ok a => exact h a rfl

/-- A step for every item of a list. -/
lemma mapM {f : α → Except ε β} {as : List α} (h : ∀ a ∈ as, Ensures R F (f a)) :
    Ensures (fun bs => ∀ b ∈ bs, R b) F (as.mapM f) := by
  induction as with
  | nil => exact fun _ => nofun
  | cons a as ih =>
    rw [List.forall_mem_cons] at h
    rw [List.mapM_cons]
    exact h.1.bind fun b hb => (ih h.2).bind fun bs hbs => List.forall_mem_cons.2 ⟨hb, hbs⟩

end Ensures

/-! ## What two calculations come to -/

/-- Two calculations have results that are related, or failures that are. -/
inductive Except.Rel {ε ε' α β : Type} (E : ε → ε' → Prop) (R : α → β → Prop) :
    Except ε α → Except ε' β → Prop where
  /-- Both have a result. -/
  | ok {a : α} {b : β} (h : R a b) : Rel E R (.ok a) (.ok b)
  /-- Both fail. -/
  | error {e : ε} {e' : ε'} (h : E e e') : Rel E R (.error e) (.error e')

namespace Except.Rel

variable {ε ε' α β γ δ : Type} {E : ε → ε' → Prop} {P : α → β → Prop} {R : γ → δ → Prop}

/-- A calculation is related to itself if what it comes to is. -/
lemma refl {E : ε → ε → Prop} {P : α → α → Prop} (hE : ∀ e, E e e) (hP : ∀ a, P a a)
    (x : Except ε α) : Rel E P x x := by
  cases x with
  | error e => exact .error (hE e)
  | ok a => exact .ok (hP a)

variable {x : Except ε α} {y : Except ε' β}

/-- Weaker relations. -/
lemma mono {E' : ε → ε' → Prop} {P' : α → β → Prop} (h : Rel E P x y) (hE : ∀ e e', E e e' → E' e e')
    (hP : ∀ a b, P a b → P' a b) : Rel E' P' x y := by
  cases h with
  | ok h => exact .ok (hP _ _ h)
  | error h => exact .error (hE _ _ h)

/-- Two steps in turn. -/
lemma bind (h : Rel E P x y) {f : α → Except ε γ} {g : β → Except ε' δ}
    (hfg : ∀ a b, P a b → Rel E R (f a) (g b)) : Rel E R (x >>= f) (y >>= g) := by
  cases h with
  | ok h => exact hfg _ _ h
  | error h => exact .error h

/-- Functions of the results. -/
lemma map (h : Rel E P x y) {f : α → γ} {g : β → δ} (hfg : ∀ a b, P a b → R (f a) (g b)) :
    Rel E R (f <$> x) (g <$> y) := by
  cases h with
  | ok h => exact .ok (hfg _ _ h)
  | error h => exact .error h

/-- Functions of the failures. -/
lemma mapError {φ φ' : Type} {F : φ → φ' → Prop} (h : Rel E P x y) {f : ε → φ} {g : ε' → φ'}
    (hfg : ∀ e e', E e e' → F (f e) (g e')) : Rel F P (x.mapError f) (y.mapError g) := by
  cases h with
  | ok h => exact .ok h
  | error h => exact .error (hfg _ _ h)

/-- A step for every item of a list. -/
lemma mapM {as : List α} {bs : List β} (h : List.Forall₂ P as bs) {f : α → Except ε γ}
    {g : β → Except ε' δ} (hfg : ∀ a b, P a b → Rel E R (f a) (g b)) :
    Rel E (List.Forall₂ R) (as.mapM f) (bs.mapM g) := by
  induction h with
  | nil => exact .ok .nil
  | cons hab _ ih =>
    rw [List.mapM_cons, List.mapM_cons]
    exact (hfg _ _ hab).bind fun c d hcd => ih.bind fun cs ds hcds => .ok (.cons hcd hcds)

end Except.Rel

end DiceCalculus
