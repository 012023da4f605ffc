import DiceCalculus.Proofs.Law.Support
import DiceCalculus.Proofs.Run.Scoping

set_option autoImplicit false
set_option relaxedAutoImplicit false

/-!
# Sessions that cover each other

An expression is sampled in one session while its law is computed in another. The session of laws
covers that of samples: wherever a variable holds a sampled value, it holds a law that gives mass
to that value, or one law for each item of a sequence, or the same value.

## Main definitions

* `Law.Covers`, `Law.CoverItems` — a law, or the laws of components, and sampled values.
* `Binding.Covers`, `Flow.Covers`, `Frames.Covers` — what variables hold, how statements hand over,
  and the variables of a frame.
* `Contract.plain` — the contract of an evaluation without declarations, by which masses are
  conserved, scopes exist, and variables stay as they are.
* `Session.Covers` — the frames of the scope, and those of the registered functions, cover each
  other one by one.
* `Session.CoversFresh` — no other scope has the innermost frames, in which statements assign.

## Main results

* `Binding.Covers.toLaw`, `Binding.Covers.toLaws` — the views of what a variable holds.
* `Session.Covers.after` — expressions that are evaluated on either side keep it so.
* `Session.Covers.enter`, `Session.CoversFresh.assign` — fresh frames, and assignments in them.

## Design

The frames of the two scopes are paired by their places in the chains. Their numbers differ, since
the law of an `if` evaluates both branches, and so makes frames that no sample has.
-/

namespace DiceCalculus

variable {ρ : Type} [Scalar ρ]

/-! ## Laws and values -/

/-- A law covers a value that is a number with mass above zero. -/
def Law.Covers (l : Law ρ ℚ) (v : Value ρ ℚ) : Prop := ∃ x, v = .number x ∧ l.Supports (.number x)

/-- The laws of components cover sampled components that are numbers with mass above zero; the
laws beyond them give mass to absence. -/
def Law.CoverItems (ls : List (Law ρ ℚ)) (vs : List (Value ρ ℚ)) : Prop :=
  ∃ (xs : List (Number ρ)) (missing : Nat), vs = xs.map .number ∧
    List.Forall₂ Law.Supports ls (xs.map .number ++ List.replicate missing .absent)

/-- A number, or a sequence of numbers. -/
inductive Value.IsPlain {μ : Type} : Value ρ μ → Prop where
  | number (x : Number ρ) : IsPlain (.number x)
  | sequence (xs : List (Number ρ)) : IsPlain (.sequence (xs.map .number))

/-- What a variable holds whose law is computed covers what it holds when it is sampled. -/
inductive Binding.Covers : Binding ρ ℚ → Binding ρ ℚ → Prop where
  /-- A value that was there before. -/
  | value {v : Value ρ ℚ} (h : v.IsPlain) : Covers (.value v) (.value v)
  /-- A law of a number. -/
  | law {l : Law ρ ℚ} {x : Number ρ} (h : l.Supports (.number x)) :
    Covers (.law l) (.value (.number x))
  /-- One law for each item of a sequence. -/
  | laws {ls : List (Law ρ ℚ)} {xs : List (Number ρ)}
    (h : List.Forall₂ Law.Supports ls (xs.map .number)) :
    Covers (.laws ls) (.value (.sequence (xs.map .number)))

/-- A statement whose law is computed hands over as it does when it is sampled. -/
inductive Flow.Covers : Flow (Law ρ ℚ) → Flow (Value ρ ℚ) → Prop where
  /-- The next statement follows in both. -/
  | next {l : Option (Law ρ ℚ)} {v : Option (Value ρ ℚ)} (h : Option.Rel Law.Covers l v) :
    Covers (.next l) (.next v)
  /-- Both end the statements around them. -/
  | ended {l : Law ρ ℚ} {v : Value ρ ℚ} (h : l.Covers v) : Covers (.ended l) (.ended v)

namespace Law

variable {l : Law ρ ℚ} {ls : List (Law ρ ℚ)} {v : Value ρ ℚ} {vs : List (Value ρ ℚ)}

/-- A law covers a value as its only item. -/
lemma Covers.coverItems (h : l.Covers v) : CoverItems [l] [v] := by
  obtain ⟨x, rfl, hx⟩ := h
  exact ⟨[x], 0, rfl, .cons hx .nil⟩

/-- Laws that cover values one by one have mass at numbers. -/
lemma exists_of_forall₂_covers (h : List.Forall₂ Covers ls vs) :
    ∃ xs : List (Number ρ), vs = xs.map .number ∧ List.Forall₂ Supports ls (xs.map .number) := by
  induction h with
  | nil => exact ⟨[], rfl, .nil⟩
  | cons hlv _ ih =>
    obtain ⟨x, rfl, hx⟩ := hlv
    obtain ⟨xs, rfl, hxs⟩ := ih
    exact ⟨x :: xs, rfl, .cons hx hxs⟩

/-- Laws that have mass at numbers cover them as items. -/
lemma coverItems_of_forall₂ {xs : List (Number ρ)} (h : List.Forall₂ Supports ls (xs.map .number)) :
    CoverItems ls (xs.map .number) :=
  ⟨xs, 0, rfl, by rwa [List.replicate_zero, List.append_nil]⟩

end Law

/-- The laws of numbers cover them. -/
lemma Value.forall₂_toLaw {xs : List (Number ρ)} {ls : List (Law ρ ℚ)}
    (h : (xs.map Value.number).mapM Value.toLaw = .ok ls) :
    List.Forall₂ Law.Supports ls (xs.map .number) := by
  rw [Except.mapM_eq_ok_iff, List.forall₂_map_left_iff] at h
  rw [List.forall₂_map_right_iff]
  refine h.flip.imp fun l x hlx => ?_
  obtain rfl := Except.ok.inj hlx
  exact Law.supports_certain _

namespace Binding.Covers

variable {b b' : Binding ρ ℚ} (h : b.Covers b')

include h

/-- The law of what a variable holds covers its value. -/
theorem toLaw {l : Law ρ ℚ} (hl : b.toLaw = .ok l) : l.Covers b'.toValue := by
  cases h with
  | value h =>
    cases h with
    | number x =>
      obtain rfl := Except.ok.inj hl
      exact ⟨x, rfl, Law.supports_certain _⟩
    | sequence xs => cases hl
  | law h =>
    obtain rfl := Except.ok.inj hl
    exact ⟨_, rfl, h⟩
  | laws h => cases hl

/-- The laws of the items of what a variable holds cover the items of its value. -/
theorem toLaws {ls : List (Law ρ ℚ)} (hls : b.toLaws = .ok ls) : Law.CoverItems ls b'.items := by
  cases h with
  | value h =>
    cases h with
    | number x => exact Law.coverItems_of_forall₂ (@Value.forall₂_toLaw _ _ [x] _ hls)
    | sequence xs => exact Law.coverItems_of_forall₂ (Value.forall₂_toLaw hls)
  | law h =>
    obtain rfl := Except.ok.inj hls
    exact Law.Covers.coverItems ⟨_, rfl, h⟩
  | laws h =>
    obtain rfl := Except.ok.inj hls
    exact Law.coverItems_of_forall₂ h

/-- What is sampled from a variable is what it holds. -/
lemma value_toValue : b.Covers (.value b'.toValue) := by
  cases h with
  | value h => exact .value h
  | law h => exact .law h
  | laws h => exact .laws h

end Binding.Covers

/-! ## Frames -/

namespace Frames

/-- The variables of a frame cover those of another: the same names are bound, and what they hold
covers what they hold there. -/
def Covers (fs : Frames ρ ℚ) (i : Nat) (gs : Frames ρ ℚ) (j : Nat) : Prop :=
  ∀ name, Option.Rel Binding.Covers (fs.find? i name) (gs.find? j name)

/-- The frames of a chain cover those of another, one by one. -/
def CoverChain (fs : Frames ρ ℚ) (chain : List Nat) (gs : Frames ρ ℚ) (chain' : List Nat) : Prop :=
  List.Forall₂ (fun i j => fs.Covers i gs j) chain chain'

variable {fs fs' gs gs' : Frames ρ ℚ} {i j : Nat} {chain chain' : List Nat}

/-- What a chain binds covers what a chain binds that it covers. -/
lemma CoverChain.findFirst? (h : fs.CoverChain chain gs chain') (name : String) :
    Option.Rel Binding.Covers (fs.findFirst? name chain) (gs.findFirst? name chain') :=
  findFirst?_rel (h.imp fun _ _ hij => hij name)

/-- Frames with the same variables cover each other as before. -/
lemma Covers.congr (h : fs.Covers i gs j) (hf : ∀ name, fs'.find? i name = fs.find? i name)
    (hg : ∀ name, gs'.find? j name = gs.find? j name) : fs'.Covers i gs' j := fun name => by
  rw [hf, hg]
  exact h name

/-- Chains with the same variables cover each other as before. -/
lemma CoverChain.congr (h : fs.CoverChain chain gs chain')
    (hf : ∀ i ∈ chain, ∀ name, fs'.find? i name = fs.find? i name)
    (hg : ∀ j ∈ chain', ∀ name, gs'.find? j name = gs.find? j name) :
    fs'.CoverChain chain gs' chain' := by
  induction h with
  | nil => exact .nil
  | cons hij _ ih =>
    rw [List.forall_mem_cons] at hf hg
    exact .cons (hij.congr hf.1 hg.1) (ih hf.2 hg.2)

end Frames

/-! ## Sessions -/

/-- An expression that declares no function and does not take its law as a value. -/
def Expr.IsPlain (R : Registry ρ) : Expr ρ → Prop
  | .declare _ _ => False
  | .call shape _ => R.find? shape ≠ some (.builtin .law)
  | _ => True

/-- The bodies of the declared functions are made of plain expressions. -/
def Registry.IsPlain (R : Registry ρ) : Prop :=
  ∀ shape f, R.find? shape = some (.user f) → ∀ e ∈ f.body, e.Every (Expr.IsPlain R)

/-- The contract of an evaluation of plain expressions, by which masses are conserved, scopes
exist, and variables stay as they are. -/
def Contract.plain (R : Registry ρ) : Contract ρ ℚ :=
  (normalized ρ).and ((wellScoped ρ ℚ).and (steady ℚ R (Expr.IsPlain R)))

variable {R : Registry ρ}

/-- Every primitive step of an evaluation of plain expressions keeps their contract. -/
lemma Contract.isSound_plain (hR : R.IsPlain) : (plain R).IsSound :=
  isSound_normalized.and (isSound_wellScoped.and (isSound_steady hR fun _ _ h => h))

/-- A session in which laws are computed covers one in which samples are taken. -/
structure Session.Covers (R : Registry ρ) (s t : Session ρ ℚ) : Prop where
  /-- The session of laws has the invariant of its contract. -/
  left : (Contract.plain R).inv s
  /-- The session of samples has it too. -/
  right : (Contract.plain R).inv t
  /-- The frames of the scope cover each other. -/
  scope : s.frames.CoverChain s.scope.chain t.frames t.scope.chain
  /-- The frames of the declared functions cover each other. -/
  closures : ∀ shape f, R.find? shape = some (.user f) →
    s.frames.CoverChain f.scope.chain t.frames f.scope.chain

/-- The innermost frame of the scope is in no other scope. -/
structure Session.OwnsFrame (R : Registry ρ) (s : Session ρ ℚ) : Prop where
  /-- It is not one of the frames around it. -/
  scope : s.scope.frame ∉ s.scope.outer
  /-- It is not one of the frames of a declared function. -/
  closures : ∀ shape f, R.find? shape = some (.user f) → s.scope.frame ∉ f.scope.chain

/-- A session of laws covers one of samples, and in both the innermost frame is in no other
scope. -/
structure Session.CoversFresh (R : Registry ρ) (s t : Session ρ ℚ) : Prop where
  /-- The session of laws covers that of samples. -/
  covers : s.Covers R t
  /-- The innermost frame of the session of laws is in no other scope. -/
  left : s.OwnsFrame R
  /-- The innermost frame of the session of samples is in no other scope. -/
  right : t.OwnsFrame R

namespace Session

variable {s s' t t' : Session ρ ℚ} {p : Part}

/-- What may differ after an evaluation of plain expressions. -/
lemma after_plain (h : (Contract.plain R).after p s s') : s'.scope = s.scope ∧
    ∀ i < s.frames.size, (p = .statement → i ≠ s.scope.frame) →
      ∀ name, s'.frames.find? i name = s.frames.find? i name := ⟨h.2.2.1, h.2.2.2.2⟩

/-- The scope of the registered functions are those of the registry. -/
lemma inv_plain (h : (Contract.plain R).inv s) : s.registry = R ∧
    s.frames.Contains s.scope ∧
    ∀ shape f, R.find? shape = some (.user f) → s.frames.Contains f.scope := by
  obtain ⟨-, hscoped, hregistry⟩ := h
  exact ⟨hregistry, hscoped.scope, fun shape f hf => hscoped.closures shape f (hregistry ▸ hf)⟩

/-- Expressions that are evaluated on both sides keep one covering the other. -/
theorem Covers.after (h : s.Covers R t) (hs : (Contract.plain R).inv s')
    (hs' : (Contract.plain R).after .expression s s') (ht : (Contract.plain R).inv t')
    (ht' : (Contract.plain R).after .expression t t') : s'.Covers R t' := by
  obtain ⟨hscope, hframes⟩ := after_plain hs'
  obtain ⟨hscope', hframes'⟩ := after_plain ht'
  obtain ⟨-, hleft, hleft'⟩ := inv_plain h.left
  obtain ⟨-, hright, hright'⟩ := inv_plain h.right
  refine ⟨hs, ht, ?_, fun shape f hf => ?_⟩
  · rw [hscope, hscope']
    exact h.scope.congr (fun i hi => hframes i (hleft i hi) nofun)
      fun i hi => hframes' i (hright i hi) nofun
  · exact (h.closures shape f hf).congr (fun i hi => hframes i (hleft' shape f hf i hi) nofun)
      fun i hi => hframes' i (hright' shape f hf i hi) nofun

/-- The innermost frame stays in no other scope as long as the scope does. -/
lemma OwnsFrame.after (h : s.OwnsFrame R) (hs : (Contract.plain R).after p s s') :
    s'.OwnsFrame R := by
  obtain ⟨hscope, -⟩ := after_plain hs
  exact ⟨hscope ▸ h.scope, hscope ▸ h.closures⟩

/-- A fresh frame is in no other scope. -/
lemma ownsFrame_enter {scope : Scope} (hs : (Contract.plain R).inv s)
    (hscope : s.frames.Contains scope) : (s.enter scope).OwnsFrame R where
  scope h := Nat.lt_irrefl _ (hscope _ h)
  closures shape f hf h := Nat.lt_irrefl _ ((inv_plain hs).2.2 shape f hf _ h)

/-- Fresh frames cover each other. -/
theorem Covers.enter (hR : R.IsPlain) (h : s.Covers R t) {scope scope' : Scope}
    (hs : (Contract.plain R).usable s scope) (ht : (Contract.plain R).usable t scope')
    (hchain : s.frames.CoverChain scope.chain t.frames scope'.chain) :
    (s.enter scope).CoversFresh R (t.enter scope') := by
  have hc := Contract.isSound_plain hR
  have hframes (s : Session ρ ℚ) (scope : Scope) (i : Nat) (name : String) :
      (s.enter scope).frames.find? i name = s.frames.find? i name :=
    Frames.find?_extend s.frames scope i name
  have hfresh (s : Session ρ ℚ) (scope : Scope) (name : String) :
      s.frames.find? (s.enter scope).scope.frame name = none :=
    Frames.find?_of_size_le (Nat.le_refl s.frames.size) name
  refine ⟨⟨hc.enter h.left hs, hc.enter h.right ht, ?_, fun shape f hf => ?_⟩,
    ownsFrame_enter h.left hs.2.1, ownsFrame_enter h.right ht.2.1⟩
  · refine .cons (fun name => ?_) (hchain.congr (fun i _ => hframes s scope i)
      fun i _ => hframes t scope' i)
    rw [hframes, hframes, hfresh, hfresh]
    exact .none
  · exact (h.closures shape f hf).congr (fun i _ => hframes s scope i) fun i _ => hframes t scope' i

/-- An assignment changes no frame but the innermost. -/
lemma OwnsFrame.find?_assign (h : s.OwnsFrame R) (name : String) (b : Binding ρ ℚ) :
    (∀ i ∈ s.scope.outer, ∀ n, (s.assign name b).frames.find? i n = s.frames.find? i n) ∧
      ∀ shape f, R.find? shape = some (.user f) → ∀ i ∈ f.scope.chain, ∀ n,
        (s.assign name b).frames.find? i n = s.frames.find? i n := by
  have hother {i : Nat} (hi : i ≠ s.scope.frame) (n : String) :
      (s.assign name b).frames.find? i n = s.frames.find? i n :=
    (Frames.find?_assign ..).trans (if_neg fun h => hi h.1)
  refine ⟨fun i hi => hother fun h' => h.scope (h' ▸ hi), fun shape f hf i hi => ?_⟩
  exact hother fun h' => h.closures shape f hf (h' ▸ hi)

/-- Assignments of what covers each other in fresh frames. -/
theorem CoversFresh.assign (hR : R.IsPlain) (h : s.CoversFresh R t) (name : String)
    {b b' : Binding ρ ℚ} (hb : b.Covers b') (hs : b.HasLaws (Contract.plain R).law)
    (ht : b'.HasLaws (Contract.plain R).law) :
    (s.assign name b).CoversFresh R (t.assign name b') := by
  have hc := Contract.isSound_plain hR
  obtain ⟨hleft, hafter⟩ := hc.assign name h.covers.left hs
  obtain ⟨hright, hafter'⟩ := hc.assign name h.covers.right ht
  obtain ⟨houter, hclosures⟩ := h.left.find?_assign name b
  obtain ⟨houter', hclosures'⟩ := h.right.find?_assign name b'
  have hsize := (inv_plain h.covers.left).2.1 s.scope.frame List.mem_cons_self
  have hsize' := (inv_plain h.covers.right).2.1 t.scope.frame List.mem_cons_self
  refine ⟨⟨hleft, hright, ?_, fun shape f hf => ?_⟩, h.left.after hafter, h.right.after hafter'⟩
  · obtain ⟨hhead, htail⟩ := List.forall₂_cons.1 h.covers.scope
    refine .cons (fun n => ?_) (Frames.CoverChain.congr htail houter houter')
    rw [Session.assign, Session.assign, Frames.find?_assign, Frames.find?_assign]
    by_cases hn : n = name
    · rw [if_pos ⟨rfl, hsize, hn⟩, if_pos ⟨rfl, hsize', hn⟩]
      exact .some hb
    · rw [if_neg fun h => hn h.2.2, if_neg fun h => hn h.2.2]
      exact hhead n
  · exact (h.covers.closures shape f hf).congr (hclosures shape f hf) (hclosures' shape f hf)

/-- Parameters that are bound in fresh frames to what covers each other. -/
lemma CoversFresh.assignAll (hR : R.IsPlain) (h : s.CoversFresh R t)
    {bs bs' : List (String × Binding ρ ℚ)}
    (hbs : List.Forall₂ (fun b b' => b.1 = b'.1 ∧ Binding.Covers b.2 b'.2) bs bs')
    (hs : ∀ b ∈ bs, b.2.HasLaws (Contract.plain R).law)
    (ht : ∀ b ∈ bs', b.2.HasLaws (Contract.plain R).law) :
    (s.assignAll bs).CoversFresh R (t.assignAll bs') := by
  induction hbs generalizing s t with
  | nil => exact h
  | @cons b b' _ _ hb _ ih =>
    rw [List.forall_mem_cons] at hs ht
    obtain ⟨name, b⟩ := b
    obtain ⟨name', b'⟩ := b'
    obtain ⟨rfl, hb⟩ := hb
    exact ih (h.assign hR name hb hs.1 ht.1) hs.2 ht.2

/-- Sessions one call deeper cover each other as before. -/
lemma CoversFresh.down (hR : R.IsPlain) (h : s.CoversFresh R t) :
    (s.down s.scope).CoversFresh R (t.down t.scope) := by
  have hc := Contract.isSound_plain hR
  exact ⟨⟨hc.down h.covers.left, hc.down h.covers.right, h.covers.scope, h.covers.closures⟩,
    ⟨h.left.scope, h.left.closures⟩, ⟨h.right.scope, h.right.closures⟩⟩

end Session

end DiceCalculus
