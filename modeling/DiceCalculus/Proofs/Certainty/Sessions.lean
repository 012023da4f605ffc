import DiceCalculus.Proofs.Certainty.Laws
import DiceCalculus.Proofs.Expr.Parts
import DiceCalculus.Proofs.Run.Contract
import DiceCalculus.Proofs.Sessions

set_option autoImplicit false
set_option relaxedAutoImplicit false

/-!
# Sessions that mirror each other

Without dice, an expression is sampled in one session while its law is computed in another, and the
two do the same things to their sessions. Wherever a variable holds a value in the one, it holds in
the other the same value, or a law that is certain of it.

## Main definitions

* `Law.Mirrors`, `Law.MirrorItems`, `Binding.Mirrors`, `Flow.Mirrors` — laws and values.
* `Expr.IsRollFree` — an expression without dice that does not take its law as a value.
* `Session.Mirrors` — two sessions that differ in what variables hold, and hold the same for certain.

## Main results

* `Binding.Mirrors.toLaw`, `Binding.Mirrors.toLaws` — what is read from a variable.
* `Session.Mirrors.enter`, `Session.Mirrors.assign`, `Session.Mirrors.declare` — the changes of a
  session.

## Design

Only the frames that can be reached matter, so a session comes with a predicate of the frames that
the two agree about. It holds of all frames that are still to be made.
-/

namespace DiceCalculus

variable {ρ μ : Type} [Scalar ρ] [Mass μ] {α β γ δ : Type}

/-! ## Laws and values -/

/-- A law mirrors the number that it is certain of. -/
def Law.Mirrors (l : Law ρ μ) (v : Value ρ μ) : Prop := ∃ x, v = .number x ∧ l.IsCertain x

/-- Laws mirror the numbers that they are certain of, one by one. -/
def Law.MirrorItems (ls : List (Law ρ μ)) (vs : List (Value ρ μ)) : Prop :=
  ∃ xs : List (Number ρ), vs = xs.map .number ∧ List.Forall₂ IsCertain ls xs

/-- A value in which there is no law. -/
def Value.IsLawFree (v : Value ρ μ) : Prop := v.HasLaws fun _ => False

/-- What a variable holds whose law is computed mirrors what it holds when it is sampled. -/
inductive Binding.Mirrors : Binding ρ μ → Binding ρ μ → Prop where
  /-- A value that was there before. -/
  | value {v : Value ρ μ} (h : v.IsLawFree) : Mirrors (.value v) (.value v)
  /-- A law that is certain of a number. -/
  | law {l : Law ρ μ} {x : Number ρ} (h : l.IsCertain x) : Mirrors (.law l) (.value (.number x))
  /-- One law for each number of a sequence. -/
  | laws {ls : List (Law ρ μ)} {xs : List (Number ρ)} (h : List.Forall₂ Law.IsCertain ls xs) :
    Mirrors (.laws ls) (.value (.sequence (xs.map .number)))

/-- A statement whose law is computed hands over as it does when it is sampled. -/
inductive Flow.Mirrors : Flow (Law ρ μ) → Flow (Value ρ μ) → Prop where
  /-- The next statement follows in both. -/
  | next {l : Option (Law ρ μ)} {v : Option (Value ρ μ)} (h : Option.Rel Law.Mirrors l v) :
    Mirrors (.next l) (.next v)
  /-- Both end the statements around them. -/
  | ended {l : Law ρ μ} {v : Value ρ μ} (h : l.Mirrors v) : Mirrors (.ended l) (.ended v)

/-- Laws that mirror values one by one are certain of numbers. -/
lemma Law.mirrorItems_of_forall₂ {ls : List (Law ρ μ)} {vs : List (Value ρ μ)}
    (h : List.Forall₂ Law.Mirrors ls vs) : Law.MirrorItems ls vs := by
  induction h with
  | nil => exact ⟨[], rfl, .nil⟩
  | cons hlv _ ih =>
    obtain ⟨x, rfl, hx⟩ := hlv
    obtain ⟨xs, rfl, hxs⟩ := ih
    exact ⟨x :: xs, rfl, .cons hx hxs⟩

section Views

variable (hμ : Mass.IsUnital μ)

include hμ

/-- The law of a value without laws is certain of it. -/
lemma Value.IsLawFree.toLaw {v : Value ρ μ} {l : Law ρ μ} (h : v.IsLawFree)
    (hl : v.toLaw = .ok l) : l.Mirrors v := by
  cases h with
  | number x =>
    obtain rfl := Except.ok.inj hl
    exact ⟨x, rfl, Law.isCertain_certain hμ x⟩
  | sequence h => cases hl
  | law h => exact h.elim

/-- The laws of values without laws are certain of them. -/
lemma Value.mirrorItems_toLaw {vs : List (Value ρ μ)} {ls : List (Law ρ μ)}
    (h : ∀ v ∈ vs, v.IsLawFree) (hls : vs.mapM (·.toLaw) = .ok ls) : Law.MirrorItems ls vs := by
  refine Law.mirrorItems_of_forall₂ ?_
  rw [Except.mapM_eq_ok_iff] at hls
  induction hls with
  | nil => exact .nil
  | cons hl _ ih =>
    rw [List.forall_mem_cons] at h
    exact .cons (h.1.toLaw hμ hl) (ih h.2)

variable {b b' : Binding ρ μ} (h : b.Mirrors b')

include h

/-- The law of what a variable holds mirrors its value. -/
theorem Binding.Mirrors.toLaw {l : Law ρ μ} (hl : b.toLaw = .ok l) : l.Mirrors b'.toValue := by
  cases h with
  | value h => exact h.toLaw hμ hl
  | law h =>
    obtain rfl := Except.ok.inj hl
    exact ⟨_, rfl, h⟩
  | laws h => cases hl

/-- The laws of the items of what a variable holds mirror the items of its value. -/
theorem Binding.Mirrors.toLaws {ls : List (Law ρ μ)} (hls : b.toLaws = .ok ls) :
    Law.MirrorItems ls b'.items := by
  cases h with
  | value h => exact Value.mirrorItems_toLaw hμ (Value.HasLaws.items h) hls
  | law h =>
    obtain rfl := Except.ok.inj hls
    exact ⟨[_], rfl, .cons h .nil⟩
  | laws h =>
    obtain rfl := Except.ok.inj hls
    exact ⟨_, rfl, h⟩

omit hμ in
/-- What is sampled from a variable is what it holds. -/
lemma Binding.Mirrors.value_toValue : b.Mirrors (.value b'.toValue) := by
  cases h with
  | value h => exact .value h
  | law h => exact .law h
  | laws h => exact .laws h

end Views

/-! ## Sessions -/

/-- An expression without dice that calls the functions of allowed shapes only. -/
def Expr.IsRollFree (allowed : Shape → Prop) : Expr ρ → Prop
  | .dice _ _ => False
  | .call shape _ => allowed shape
  | _ => True

/-- A session in which laws are computed mirrors one in which samples are taken: they differ in what
the variables of live frames hold, and hold the same for certain. -/
structure Session.Mirrors (live : Nat → Prop) (allowed : Shape → Prop) (s t : Session ρ μ) :
    Prop where
  /-- The limits are the same. -/
  limits : t.limits = s.limits
  /-- The registered functions are the same. -/
  registry : t.registry = s.registry
  /-- The scope is the same. -/
  scope_eq : t.scope = s.scope
  /-- The depth is the same. -/
  depth : t.depth = s.depth
  /-- There are as many frames. -/
  size : t.frames.size = s.frames.size
  /-- The variables of live frames hold the same. -/
  frames : ∀ i, live i → ∀ name,
    Option.Rel Binding.Mirrors (s.frames.find? i name) (t.frames.find? i name)
  /-- Frames that are still to be made are live. -/
  fresh : ∀ i, s.frames.size ≤ i → live i
  /-- The frames of the scope are live. -/
  scope : ∀ i ∈ s.scope.chain, live i
  /-- The frames of the scopes of declared functions are live. -/
  closures : ∀ shape c, s.registry.find? shape = some (.user c) → ∀ i ∈ c.scope.chain, live i
  /-- No dice are rolled in the bodies of declared functions. -/
  bodies : ∀ shape c, s.registry.find? shape = some (.user c) →
    ∀ e ∈ c.body, e.Every (Expr.IsRollFree allowed)
  /-- No function of an allowed shape takes a law as a value. -/
  laws : ∀ shape, allowed shape → s.registry.find? shape ≠ some (.builtin .law)

namespace Session.Mirrors

variable {live : Nat → Prop} {allowed : Shape → Prop} {s t : Session ρ μ}

/-- What a name is bound to is found on both sides. -/
lemma lookup? (h : s.Mirrors live allowed t) (name : String) :
    Option.Rel Binding.Mirrors (s.frames.lookup? s.scope name) (t.frames.lookup? t.scope name) := by
  rw [h.scope_eq]
  refine Frames.findFirst?_rel (List.forall₂_same.2 fun i hi => ?_)
  exact h.frames i (h.scope i hi) name

/-- A scope of live frames. -/
lemma inScope (h : s.Mirrors live allowed t) {scope : Scope} (hscope : ∀ i ∈ scope.chain, live i) :
    (s.inScope scope).Mirrors live allowed (t.inScope scope) :=
  { h with scope_eq := rfl, scope := hscope }

/-- One call deeper. -/
lemma down (h : s.Mirrors live allowed t) :
    (s.down s.scope).Mirrors live allowed (t.down t.scope) :=
  { h with depth := congrArg (· + 1) h.depth }

/-- Back from a call in a scope of live frames. -/
lemma up (h : s.Mirrors live allowed t) {scope : Scope} (hscope : ∀ i ∈ scope.chain, live i) :
    (s.up scope).Mirrors live allowed (t.up scope) :=
  { h with scope_eq := rfl, scope := hscope, depth := congrArg (· - 1) h.depth }

/-- A fresh frame inside a scope of live frames. -/
theorem enter (h : s.Mirrors live allowed t) {scope : Scope} (hscope : ∀ i ∈ scope.chain, live i) :
    (s.enter scope).Mirrors live allowed (t.enter scope) := by
  have hsize (s : Session ρ μ) : (s.enter scope).frames.size = s.frames.size + 1 :=
    Frames.size_extend _ scope
  have hfind (s : Session ρ μ) (i : Nat) (name : String) :
      (s.enter scope).frames.find? i name = s.frames.find? i name := Frames.find?_extend s.frames scope i name
  refine { h with scope_eq := ?_, size := ?_, frames := ?_, fresh := ?_, scope := ?_ }
  · show (⟨t.frames.size, scope.chain⟩ : Scope) = ⟨s.frames.size, scope.chain⟩
    rw [h.size]
  · rw [hsize, hsize, h.size]
  · intro i hi name
    rw [hfind, hfind]
    exact h.frames i hi name
  · intro i hi
    rw [hsize] at hi
    exact h.fresh i (Nat.le_of_succ_le hi)
  · exact List.forall_mem_cons.2 ⟨h.fresh _ (Nat.le_refl _), hscope⟩

/-- A name that is bound to what mirrors each other. -/
theorem assign (h : s.Mirrors live allowed t) (name : String) {b b' : Binding ρ μ}
    (hb : b.Mirrors b') : (s.assign name b).Mirrors live allowed (t.assign name b') := by
  have hsize (s : Session ρ μ) (b : Binding ρ μ) : (s.assign name b).frames.size = s.frames.size :=
    Frames.size_assign ..
  refine { h with size := ?_, frames := ?_, fresh := ?_ }
  · rw [hsize, hsize, h.size]
  · intro i hi n
    show Option.Rel _ ((s.frames.assign s.scope name b).find? i n)
      ((t.frames.assign t.scope name b').find? i n)
    rw [Frames.find?_assign, Frames.find?_assign, h.scope_eq, h.size]
    split
    · exact .some hb
    · exact h.frames i hi n
  · intro i hi
    rw [hsize] at hi
    exact h.fresh i hi

/-- Names that are bound to what mirrors each other. -/
lemma assignAll (h : s.Mirrors live allowed t) {bs bs' : List (String × Binding ρ μ)}
    (hbs : List.Forall₂ (fun b b' => b.1 = b'.1 ∧ Binding.Mirrors b.2 b'.2) bs bs') :
    (s.assignAll bs).Mirrors live allowed (t.assignAll bs') := by
  induction hbs generalizing s t with
  | nil => exact h
  | @cons b b' _ _ hb _ ih =>
    obtain ⟨name, b⟩ := b
    obtain ⟨name', b'⟩ := b'
    obtain ⟨rfl, hb⟩ := hb
    exact ih (h.assign name hb)

/-- A declared function. -/
theorem declare (h : s.Mirrors live allowed t) (signature : Signature) {body : List (Expr ρ)}
    (hbody : ∀ e ∈ body, e.Every (Expr.IsRollFree allowed)) :
    ({ s with registry :=
        s.registry.insert signature.shape (.user ⟨signature, body, s.scope⟩) } : Session ρ μ).Mirrors
      live allowed
      { t with registry :=
        t.registry.insert signature.shape (.user ⟨signature, body, t.scope⟩) } := by
  have hfind {shape : Shape} {f : Function ρ}
      (hf : (s.registry.insert signature.shape (.user ⟨signature, body, s.scope⟩)).find? shape =
        some f) : f = .user ⟨signature, body, s.scope⟩ ∨ s.registry.find? shape = some f := by
    rw [Dictionary.find?_insert] at hf
    split at hf
    · exact .inl (Option.some_inj.1 hf).symm
    · exact .inr hf
  refine { h with registry := ?_, closures := ?_, bodies := ?_, laws := ?_ }
  · show t.registry.insert _ _ = s.registry.insert _ _
    rw [h.registry, h.scope_eq]
  · intro shape c hc
    rcases hfind hc with heq | hc
    · exact Function.user.inj heq ▸ h.scope
    · exact h.closures shape c hc
  · intro shape c hc
    rcases hfind hc with heq | hc
    · exact Function.user.inj heq ▸ hbody
    · exact h.bodies shape c hc
  · intro shape hshape hlaw
    rcases hfind hlaw with heq | hlaw
    · cases heq
    · exact h.laws shape hshape hlaw

end Session.Mirrors

end DiceCalculus
