import DiceCalculus.Proofs.Arguments
import DiceCalculus.Proofs.FrameEffect
import DiceCalculus.Proofs.Outputs
import Mathlib.Logic.Relation

set_option autoImplicit false
set_option relaxedAutoImplicit false

/-!
# Aliases of a variable

A variable that is copied is stored in one mode as the value that it shows, and in the other one as
whatever it holds. Neither can be told from the original by any of the four views of a variable, since
these depend on the value that is shown. The same is true of the parameter of a function to which a
variable is passed, and so of chains of copies and calls of any length.

## Main definitions

* `SameUpToSubject` — the same, or two faults that say that something is not supported.
* `Binding.copied` — what a variable holds to which another one is assigned.
* `Session.binding?`, `Session.Shows` — what a name is bound to in scope, and the value that this shows.
* `Session.entered` — the session in which the body of a function is run.
* `Link` — one step of a chain of aliases.
* `Session.SameViews` — two variables answer alike in all four views.

## Main results

* `Binding.items_toValue`, `Binding.toLaws_eq_mapM`, `Binding.toLaw_sameUpToSubject` — the views of a
  binding depend on its value.
* `Question.binding?_play` — to evaluate an expression leaves the variables in scope as they are.
* `Link.shows`, `Link.shows_of_chain` — aliases show the value of the original.
* `aliases_are_transparent` — all of these together.
-/

namespace DiceCalculus

variable {ρ μ σ α : Type} [Scalar ρ]

/-! ## The views of a binding -/

/-- Two results are the same, or two faults that say of different things that the same is not supported. -/
def SameUpToSubject (x y : Except (Fault ρ μ) α) : Prop :=
  x = y ∨ ∃ action subject subject',
    x = .error (.unsupported action subject) ∧ y = .error (.unsupported action subject')

namespace Binding

variable {b b' : Binding ρ μ}

/-- The items of a binding are those of its value. -/
theorem items_toValue (b : Binding ρ μ) : b.items = b.toValue.items := by
  cases b <;> rfl

/-- What a variable holds to which another one is assigned. Sampled, it holds one value, and otherwise
whatever the other one holds. -/
def copied (b : Binding ρ μ) : Mode → Binding ρ μ
  | .sample => .value b.toValue
  | .exact => b

/-- A copy shows the value of the original. -/
@[simp] lemma toValue_copied (b : Binding ρ μ) (m : Mode) : (b.copied m).toValue = b.toValue := by
  cases m <;> rfl

variable [Mass μ]

/-- The laws of a binding are those of its items. -/
theorem toLaws_eq_mapM (b : Binding ρ μ) : b.toLaws = b.items.mapM (·.toLaw) := by
  cases b with
  | value v => rfl
  | law l => rfl
  | laws ls =>
    show Except.ok ls = (ls.map Value.law).mapM Value.toLaw
    rw [List.mapM_map]
    exact (List.mapM_pure (m := Except (Fault ρ μ)) (f := id) |>.trans (by rw [List.map_id]; rfl)).symm

/-- The law of a binding is that of its value, but a list of laws is not named in the same way. -/
lemma toLaw_eq (b : Binding ρ μ) : b.toLaw = b.toValue.toLaw ∨
    b.toLaw = .error (.unsupported .takeLaw .sequenceVariable) ∧
      b.toValue.toLaw = .error (.unsupported .takeLaw .sequenceValue) := by
  cases b with
  | value v => exact .inl rfl
  | law l => exact .inl rfl
  | laws ls => exact .inr ⟨rfl, rfl⟩

/-- The law of a binding is that of its value, up to the subject of a fault. -/
theorem toLaw_sameUpToSubject (b : Binding ρ μ) : SameUpToSubject b.toLaw b.toValue.toLaw :=
  b.toLaw_eq.imp id fun h => ⟨_, _, _, h⟩

variable (h : b.toValue = b'.toValue)

include h

omit [Mass μ] in
/-- Bindings of one value have the same items. -/
lemma items_congr : b.items = b'.items := by
  rw [items_toValue, items_toValue, h]

/-- Bindings of one value have the same laws. -/
lemma toLaws_congr : b.toLaws = b'.toLaws := by
  rw [toLaws_eq_mapM, toLaws_eq_mapM, items_congr h]

/-- Bindings of one value have the same law, up to the subject of a fault. -/
lemma toLaw_congr : SameUpToSubject b.toLaw b'.toLaw := by
  rcases b.toLaw_eq with hb | ⟨hb, hvalue⟩ <;> rcases b'.toLaw_eq with hb' | ⟨hb', hvalue'⟩
  · exact .inl (hb.trans (h ▸ hb'.symm))
  · exact .inr ⟨_, _, _, hb.trans (h ▸ hvalue'), hb'⟩
  · exact .inr ⟨_, _, _, hb, hb'.trans (h ▸ hvalue)⟩
  · exact .inl (hb.trans hb'.symm)

end Binding

/-! ## Variables in scope -/

namespace Session

/-- The binding of a name in the scope of a session. -/
def binding? (s : Session ρ μ) (name : String) : Option (Binding ρ μ) := s.frames.lookup? s.scope name

/-- The session in which the body of a function is run, from the scope of the function and what its
parameters hold. -/
def entered (s : Session ρ μ) (scope : Scope) (bs : List (String × Binding ρ μ)) : Session ρ μ :=
  ((s.enter scope).assignAll bs).down (s.enter scope).scope

variable {s : Session ρ μ} {scope : Scope} {bs : List (String × Binding ρ μ)} {name : String}
  {b : Binding ρ μ}

/-- In the body of a function, a parameter holds what it was bound to. -/
lemma binding?_entered (h : bs.reverse.lookup name = some b) :
    (s.entered scope bs).binding? name = some b := by
  have hframe := find?_enter_assignAll s scope bs s.frames.size name
  rw [if_pos rfl, h] at hframe
  show Frames.findFirst? _ name (s.frames.size :: scope.chain) = some b
  unfold Frames.findFirst?
  rw [show (s.entered scope bs).frames.find? s.frames.size name = some b from hframe]

/-- The body of a function is run in a consistent session. -/
lemma IsConsistent.entered (h : s.IsConsistent) (hscope : scope.IsRooted s.frames.size) :
    (s.entered scope bs).IsConsistent := by
  have hbound := (Evolves.assignAll (s.enter scope) bs).isConsistent (h.enter hscope)
  have hrooted := hbound.scope
  rw [Session.assignAll_scope] at hrooted
  exact ⟨hbound.functions, hrooted, hbound.closures⟩

end Session

variable [Mass μ] [Roller σ]

/-- To evaluate an expression, with or without a result, leaves the variables in scope as they are. -/
theorem Question.binding?_play {q : Question} (hq : q.part = .expression) {s : Session ρ μ}
    (hs : s.IsConsistent) (fuel : Nat) (e : Expr ρ) (r : σ) (name : String) :
    ((q.of (e.meaning fuel)).play s r).2.1.binding? name = s.binding? name := by
  have hsession : ((q.of (e.meaning fuel)).play s r).2.1 = _ :=
    congrArg (·.2.1) (q.outcome_trace fuel e s r).symm
  have htidy := Plan.isTidy_trace (Plan.isTidy_traceBody fuel) (q.plan e.plans) s r
  rw [hsession]
  show Frames.lookup? _ (Trace.session _).scope name = _
  rw [htidy.scope]
  refine Frames.lookup?_congr fun i hi => ?_
  refine congrArg (·.bind (·.find? name)) (htidy.frame?_eq (hs.scope.lt hi) fun hp => ?_)
  cases hq.symm.trans hp

/-! ## Copies and calls -/

namespace Expr

variable {s t : Session ρ μ} {r r' : σ} {x y : String} {b : Binding ρ μ} {m : Mode} {fuel : Nat}

/-- The meaning of a variable takes no fuel. -/
lemma meaning_var (fuel : Nat) (x : String) : (Expr.var x).meaning fuel = (.var x : Meaning ρ μ) := by
  cases fuel <;> rfl

omit [Mass μ] [Roller σ] in
/-- A variable that is bound is found. -/
lemma exec_lookup_of_binding? (h : s.binding? x = some b) :
    (Run.lookup x).exec s = .done (.ok b, s) := by
  rw [Run.exec_lookup, show s.frames.lookup? s.scope x = some b from h]

/-- A variable is stored in another one as a copy. -/
lemma play_stored_var (h : s.binding? x = some b) :
    (((Expr.var x).meaning fuel).stored m).play s r = (.ok (b.copied m), s, r) := by
  have hlookup := exec_lookup_of_binding? h
  rw [meaning_var]
  refine Run.play_of_done r ?_
  cases m with
  | exact => exact hlookup
  | sample =>
    have hvalue : (Meaning.var x : Meaning ρ μ).value.exec s = .done (.ok b.toValue, s) :=
      Run.exec_bind_done hlookup
    exact Run.exec_bind_done hvalue

/-- An assignment of a variable that is bound binds a copy. -/
lemma play_step_copy (h : s.binding? x = some b) :
    (((Expr.assign y (.var x)).meaning fuel).step m).play s r =
      (.ok (.next none), s.assign y (b.copied m), r) := by
  obtain ⟨enter, henter⟩ := exists_meaning_eq_denote (ρ := ρ) (μ := μ) fuel
  have hstored : (((Expr.var x).meaning fuel).stored m).play s r = _ := play_stored_var h
  rw [henter] at hstored ⊢
  exact Run.play_bind_ok hstored _

/-- To evaluate arguments in turn keeps a session consistent, and the parameters to which a variable is
passed hold copies of it.

**Proof sketch.** By induction over the pairs. The first argument only adds frames to a consistent
session, so that the bindings that can be seen are the same for the rest. If it is the variable
itself, what is stored is a copy of its binding (`play_stored_var`). -/
lemma play_pairs {ps : List (String × Expr ρ)} {bs : List (String × Binding ρ μ)}
    (hs : s.IsConsistent)
    (h : (ps.mapM fun p => return (p.1, ← (p.2.meaning fuel).stored m) : Run ρ μ _).play s r =
      (.ok bs, t, r')) :
    s.Evolves t ∧ bs.map (·.1) = ps.map (·.1) ∧
      ∀ p x b, (p, .var x) ∈ ps → s.binding? x = some b → (p, b.copied m) ∈ bs := by
  induction ps generalizing s r bs with
  | nil =>
    cases h
    exact ⟨.refl _, rfl, nofun⟩
  | cons e ps ih =>
    obtain ⟨p, e⟩ := e
    rw [List.mapM_cons] at h
    obtain ⟨c, u, r₁, hfirst, h⟩ := (Run.play_bind_eq_ok_iff ..).1 h
    obtain ⟨cs, u', r₂, hrest, h⟩ := (Run.play_bind_eq_ok_iff ..).1 h
    obtain ⟨d, u'', r₃, hstored, hpair⟩ := (Run.play_bind_eq_ok_iff ..).1 hfirst
    cases hpair
    cases h
    have hevolves := Question.evolves_play (.stored m) fuel e s r
    have hkept := Question.binding?_play (q := .stored m) rfl hs fuel e r
    change s.Evolves (((e.meaning fuel).stored m).play s r).2.1 at hevolves
    change ∀ name, (((e.meaning fuel).stored m).play s r).2.1.binding? name = _ at hkept
    rw [hstored] at hevolves hkept
    obtain ⟨hlast, hnames, hcopies⟩ := ih (hevolves.isConsistent hs) hrest
    refine ⟨hevolves.trans hlast, congrArg (p :: ·) hnames, fun p' x b hmem hb => ?_⟩
    rcases List.mem_cons.1 hmem with heq | hmem
    · cases heq
      cases (play_stored_var hb).symm.trans hstored
      exact List.mem_cons_self
    · exact List.mem_cons_of_mem _ (hcopies p' x b hmem ((hkept x).trans hb))

end Expr

/-! ## Chains of aliases -/

variable (σ) in
/-- One step of a chain of aliases, from a variable of a session to a variable of another one. -/
inductive Link : Session ρ μ × String → Session ρ μ × String → Prop where
  /-- The variable is copied by an assignment. -/
  | copy {m : Mode} {fuel : Nat} {s t : Session ρ μ} {r r' : σ} {x y : String} {flow : Flow (m.Answer ρ μ)}
      (h : (((Expr.assign y (.var x)).meaning fuel).step m).play s r = (.ok flow, t, r')) :
      Link (s, x) (t, y)
  /-- The variable is an argument in a call of a declared function, and the body of the function begins
  with its parameter. -/
  | pass {m : Mode} {fuel : Nat} {s t : Session ρ μ} {r r' : σ} {x p : String} {shape : Shape}
      {c : Closure ρ} {args : Slots (Expr ρ)} {bs : List (String × Binding ρ μ)}
      (hfind : s.registry.find? shape = some (.user c))
      (hplace : (p, .var x) ∈ c.signature.parameters.zip args)
      (hargs : (Closure.bind c.signature (args.map (·.meaning fuel)) m).play s r = (.ok bs, t, r')) :
      Link (s, x) (t.entered c.scope bs, p)
  /-- Whatever is done in between, the variable is found to hold what it held. -/
  | keep {s t : Session ρ μ} {x : String} (ht : t.IsConsistent) (h : t.binding? x = s.binding? x) :
      Link (s, x) (t, x)

/-- In a session that is consistent, a variable shows a value. -/
def Session.Shows (p : Session ρ μ × String) (v : Value ρ μ) : Prop :=
  p.1.IsConsistent ∧ ∃ b, p.1.binding? p.2 = some b ∧ b.toValue = v

/-- A step of a chain shows what was shown before. -/
theorem Link.shows {p p' : Session ρ μ × String} (h : Link σ p p') {v : Value ρ μ}
    (hv : Session.Shows p v) : Session.Shows p' v := by
  obtain ⟨hs, b, hb, rfl⟩ := hv
  cases h with
  | @copy m fuel s t r r' x y flow h =>
    cases (Expr.play_step_copy hb).symm.trans h
    refine ⟨(Session.Evolves.assign s y _).isConsistent hs, b.copied m, ?_, b.toValue_copied m⟩
    exact Frames.lookup?_assign_self hs.scope.made y _
  | @pass m fuel s t r r' x p shape c args bs hfind hplace hargs =>
    unfold Closure.bind at hargs
    rw [Slots.zip_map_right, List.mapM_map] at hargs
    obtain ⟨hevolves, hnames, hcopies⟩ := Expr.play_pairs hs hargs
    have hscope := (hs.closures shape c hfind).mono hevolves.size_le
    refine ⟨(hevolves.isConsistent hs).entered hscope, b.copied m, ?_, b.toValue_copied m⟩
    have hnodup : (bs.map (·.1)).Nodup := by
      rw [hnames]
      exact (hs.functions shape _ hfind).2.sublist (Slots.map_fst_zip_sublist _ args)
    refine Session.binding?_entered ((lookup_eq_some_iff_mem ?_).2 (List.mem_reverse.2 ?_))
    · rwa [List.map_reverse, List.nodup_reverse]
    · exact hcopies p x b hplace hb
  | keep ht h => exact ⟨ht, b, h.trans hb, rfl⟩

/-- A chain shows at its end what it shows at its beginning. -/
theorem Link.shows_of_chain {p p' : Session ρ μ × String} (h : Relation.ReflTransGen (Link σ) p p')
    {v : Value ρ μ} (hv : Session.Shows p v) : Session.Shows p' v := by
  induction h with
  | refl => exact hv
  | tail _ hlink ih => exact hlink.shows ih

/-! ## The views of a variable -/

namespace Session

variable (σ) in
/-- Two computations leave the sessions and the rollers in which they are made as these are, and have
results that are related. -/
def AnswerAlike {α : Type} (R : Except (Fault ρ μ) α → Except (Fault ρ μ) α → Prop)
    (act act' : Run ρ μ α) (s t : Session ρ μ) : Prop :=
  ∃ a a', R a a' ∧ ∀ r r' : σ, act.play s r = (a.mapError .fault, s, r) ∧
    act'.play t r' = (a'.mapError .fault, t, r')

variable (σ) in
/-- Two variables answer alike in all four views, up to the subject of a fault. -/
structure SameViews (p p' : Session ρ μ × String) (fuel fuel' : Nat) : Prop where
  /-- They have the same sampled value. -/
  value : AnswerAlike σ (· = ·) ((Expr.var p.2).meaning fuel).value ((Expr.var p'.2).meaning fuel').value
    p.1 p'.1
  /-- They have the same sampled components. -/
  items : AnswerAlike σ (· = ·) ((Expr.var p.2).meaning fuel).items ((Expr.var p'.2).meaning fuel').items
    p.1 p'.1
  /-- They have the same law, or what is not supported is named in another way. -/
  law : AnswerAlike σ SameUpToSubject ((Expr.var p.2).meaning fuel).law
    ((Expr.var p'.2).meaning fuel').law p.1 p'.1
  /-- They have the same laws of components. -/
  laws : AnswerAlike σ (· = ·) ((Expr.var p.2).meaning fuel).laws ((Expr.var p'.2).meaning fuel').laws
    p.1 p'.1

omit [Mass μ] in
/-- Computations that are done at once, without a change of their sessions, answer alike if their results
are related. -/
lemma AnswerAlike.of_done {α : Type} {R : Except (Fault ρ μ) α → Except (Fault ρ μ) α → Prop}
    {act act' : Run ρ μ α} {s t : Session ρ μ} {a a' : Except (Fault ρ μ) α} (h : R a a')
    (hact : act.exec s = .done (a.mapError .fault, s))
    (hact' : act'.exec t = .done (a'.mapError .fault, t)) : AnswerAlike σ R act act' s t :=
  ⟨a, a', h, fun r r' => ⟨Run.play_of_done r hact, Run.play_of_done r' hact'⟩⟩

variable {p p' : Session ρ μ × String} {v : Value ρ μ}

/-- Variables that show the same value answer alike. -/
lemma sameViews (h : Shows p v) (h' : Shows p' v) (fuel fuel' : Nat) :
    SameViews σ p p' fuel fuel' := by
  obtain ⟨s, x⟩ := p
  obtain ⟨t, z⟩ := p'
  obtain ⟨-, b, hb, hv⟩ := h
  obtain ⟨-, b', hb', hv'⟩ := h'
  have heq : b.toValue = b'.toValue := hv.trans hv'.symm
  have hx := Expr.exec_lookup_of_binding? hb
  have hz := Expr.exec_lookup_of_binding? hb'
  constructor <;> rw [Expr.meaning_var, Expr.meaning_var]
  case value =>
    exact .of_done (congrArg Except.ok heq) (Run.exec_bind_done hx) (Run.exec_bind_done hz)
  case items =>
    exact .of_done (congrArg Except.ok (Binding.items_congr heq)) (Run.exec_bind_done hx)
      (Run.exec_bind_done hz)
  case law =>
    exact .of_done (Binding.toLaw_congr heq) ((Run.exec_bind_done hx).trans (Run.exec_ofExcept ..))
      ((Run.exec_bind_done hz).trans (Run.exec_ofExcept ..))
  case laws =>
    exact .of_done (Binding.toLaws_congr heq) ((Run.exec_bind_done hx).trans (Run.exec_ofExcept ..))
      ((Run.exec_bind_done hz).trans (Run.exec_ofExcept ..))

end Session

/-- An alias of a variable gives the same results as the variable.

* The views of any binding depend on its value: its items are those of the value, its law is that of the
  value up to the subject of a fault, and its laws are those of its items.
* A copy of a variable that is bound always goes through, in either mode, and binds what the mode makes
  of the binding. A call whose arguments have been evaluated runs the body in a session in which the
  parameters hold them, if the depth allows it.
* A variable may be copied, passed to a function as an argument, by position or by keyword and among any
  others, and its parameter passed on in turn, any number of times, each time in either mode; whatever is
  done in between leaves the variable at hand as it is. The last variable then shows the value that the
  first one showed, and answers as it did in all four views, up to the subject of a fault. -/
theorem aliases_are_transparent :
    (∀ b : Binding ρ μ, b.items = b.toValue.items ∧ SameUpToSubject b.toLaw b.toValue.toLaw ∧
      b.toLaws = b.items.mapM (·.toLaw)) ∧
    (∀ (m : Mode) (fuel : Nat) (s : Session ρ μ) (r : σ) (x y : String) (b : Binding ρ μ),
      s.binding? x = some b → (((Expr.assign y (.var x)).meaning fuel).step m).play s r =
        (.ok (.next none), s.assign y (b.copied m), r)) ∧
    (∀ (m : Mode) (fuel : Nat) (s t : Session ρ μ) (r r' : σ) (shape : Shape) (c : Closure ρ)
      (args : Slots (Expr ρ)) (bs : List (String × Binding ρ μ)),
      s.registry.find? shape = some (.user c) →
      (Closure.bind c.signature (args.map (·.meaning fuel)) m).play s r = (.ok bs, t, r') →
      t.limits.maxDepth.filter (· ≤ t.depth) = none →
      (((Expr.call shape args).meaning fuel).answer m).play s r =
        let p := (Plan.enterBody fuel c.body m).play (t.entered c.scope bs) r'
        (p.1, p.2.1.up t.scope, p.2.2)) ∧
    ∀ (s t : Session ρ μ) (x z : String) (b : Binding ρ μ), s.IsConsistent → s.binding? x = some b →
      Relation.ReflTransGen (Link σ) (s, x) (t, z) →
      (∃ b', t.binding? z = some b' ∧ b'.toValue = b.toValue) ∧
      ∀ fuel fuel', Session.SameViews σ (s, x) (t, z) fuel fuel' := by
  refine ⟨fun b => ⟨b.items_toValue, b.toLaw_sameUpToSubject, b.toLaws_eq_mapM⟩,
    fun m fuel s r x y b => Expr.play_step_copy, fun m fuel s t r r' shape c args bs hfind hargs hdepth =>
      c.play_call_of_bind hfind hargs hdepth, fun s t x z b hs hb hchain => ?_⟩
  have hx : Session.Shows (s, x) b.toValue := ⟨hs, b, hb, rfl⟩
  have hz := Link.shows_of_chain hchain hx
  exact ⟨hz.2, Session.sameViews hx hz⟩

/-- Laws of two dice are copied as they are, passed to a function that is sampled, and copied there as
what they then are: one value, a sequence of laws.

**Proof sketch.** The chain of aliases has three links: the copy outside, the parameter that is
bound to it, and the copy in the frame of the function. The theorem is applied to this chain, and
what the last name is bound to is computed. -/
theorem aliases_are_transparent_through_a_function :
    let one : Law (WithBot ℚ) ℚ := .certain (.number (.int 1))
    let two : Law (WithBot ℚ) ℚ := .certain (.number (.int 2))
    let f : Signature := ⟨"f", .ofList ["p"]⟩
    let body : List (Expr (WithBot ℚ)) := [.assign "z" (.var "p"), .output (.var "z")]
    let start : Session (WithBot ℚ) ℚ := (Session.start ⟨none, some 1, none, 0⟩).assign "x" (.laws [one, two])
    let s := { start with registry := start.registry.insert f.shape (.user ⟨f, body, start.scope⟩) }
    ∃ t, Relation.ReflTransGen (Link Stepper) (s, "x") (t, "z") ∧
      t.binding? "z" = some (.value (.sequence [.law one, .law two])) ∧
      Session.SameViews Stepper (s, "x") (t, "z") 0 0 := by
  intro one two f body start s
  have hs : s.IsConsistent :=
    (Session.Evolves.trans (.assign _ "x" _) (.declare start body rfl)).isConsistent
      (Session.isConsistent_start _)
  let copied : Session (WithBot ℚ) ℚ := s.assign "y" (.laws [one, two])
  let v : Binding (WithBot ℚ) ℚ := .value (.sequence [.law one, .law two])
  let inside : Session (WithBot ℚ) ℚ := copied.entered .global [("p", v)]
  let r : Stepper := ⟨1, 1⟩
  have hfind : copied.registry.find? f.shape = some (.user ⟨f, body, .global⟩) :=
    (Dictionary.find?_insert ..).trans (if_pos rfl)
  let args : Slots (Expr (WithBot ℚ)) := .ofList [.var "y"]
  have hcopy : (((Expr.assign "y" (.var "x")).meaning 0).step .exact).play s r =
    (.ok (.next none), copied, r) := Expr.play_step_copy rfl
  have hargs : (Closure.bind f (args.map (·.meaning 0)) .sample).play copied r =
    (.ok [("p", v)], copied, r) := rfl
  have hcopy' : (((Expr.assign "z" (.var "p")).meaning 0).step .exact).play inside r =
    (.ok (.next none), inside.assign "z" v, r) := Expr.play_step_copy rfl
  have hchain : Relation.ReflTransGen (Link Stepper) (s, "x") (inside.assign "z" v, "z") :=
    ((Relation.ReflTransGen.single (.copy hcopy)).tail
      (.pass hfind List.mem_cons_self hargs)).tail (.copy hcopy')
  obtain ⟨-, -, -, htransparent⟩ := aliases_are_transparent (ρ := WithBot ℚ) (μ := ℚ) (σ := Stepper)
  obtain ⟨-, hviews⟩ := htransparent s _ "x" "z" _ hs rfl hchain
  exact ⟨_, hchain, rfl, hviews 0 0⟩

end DiceCalculus
