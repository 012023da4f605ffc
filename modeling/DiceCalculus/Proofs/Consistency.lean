import DiceCalculus.Proofs.Interactions

set_option autoImplicit false
set_option relaxedAutoImplicit false

/-!
# Consistent sessions

Between two interactions a session is at rest: its scope is that of the global variables and no call
is under way, whether the interactions before had answers or failed. Its functions are registered
under the shapes of their own signatures, and the scope in which one was declared leads from frame to
older frame down to that of the global variables.

## Main definitions

* `Function.Fits` — a function that may be registered under a shape.
* `Scope.IsRooted` — a scope whose frames become older outwards and end with the global one.
* `Session.IsConsistent`, `Session.IsAtRest` — what holds of a session at all times, and what holds
  of it between interactions.

## Main results

* `Session.Evolves.isConsistent` — every run keeps a session consistent.
* `Session.IsAtRest.after` — every interaction leaves a session at rest.
* `sessions_stay_consistent` — both, for whole sessions, and for what is asked on the way.
-/

namespace DiceCalculus

variable {ρ μ : Type} [Scalar ρ] {σ : Type}

/-! ## Functions under their shapes -/

/-- No parameter is found to be repeated if all are different, and new. -/
lemma Signature.firstRepeated?_eq_none_iff {seen names : List String} :
    firstRepeated? seen names = none ↔ names.Nodup ∧ ∀ name ∈ names, name ∉ seen := by
  induction names generalizing seen with
  | nil => simp [firstRepeated?]
  | cons name names ih =>
    unfold firstRepeated?
    split
    · next hmem => simp [hmem]
    · next hmem =>
      rw [ih, List.nodup_cons, List.forall_mem_cons]
      simp only [List.mem_cons, not_or]
      grind

/-- No parameter is found to be repeated if all are different. -/
lemma Signature.repeatedParameter?_eq_none_iff {signature : Signature} :
    signature.repeatedParameter? = none ↔ signature.parameters.items.Nodup := by
  unfold repeatedParameter?
  rw [firstRepeated?_eq_none_iff]
  exact and_iff_left fun _ _ => List.not_mem_nil

/-- A function may be registered under a shape: a built-in one under its own, and a declared one, whose
parameters have different names, under that of its signature. -/
def Function.Fits (shape : Shape) : Function ρ → Prop
  | builtin b => b.shape = shape
  | user c => c.signature.shape = shape ∧ c.signature.parameters.items.Nodup

/-! ## Rooted scopes -/

/-- A scope whose frames exist, become older outwards, and end with that of the global variables. -/
structure Scope.IsRooted (size : Nat) (scope : Scope) : Prop where
  /-- The innermost frame exists. -/
  made : scope.frame < size
  /-- Every frame is older than those inside it. -/
  older : scope.chain.Pairwise (· > ·)
  /-- The outermost frame is that of the global variables. -/
  root : scope.chain.getLast? = some 0

namespace Scope.IsRooted

variable {size size' : Nat} {scope : Scope}

/-- The scope of the global variables. -/
lemma global (h : 0 < size) : Scope.global.IsRooted size :=
  ⟨h, List.pairwise_singleton _ _, rfl⟩

/-- A scope stays rooted when there are more frames. -/
lemma mono (h : scope.IsRooted size) (hsize : size ≤ size') : scope.IsRooted size' :=
  ⟨Nat.lt_of_lt_of_le h.made hsize, h.older, h.root⟩

/-- All frames exist. -/
lemma lt (h : scope.IsRooted size) {i : Nat} (hi : i ∈ scope.chain) : i < size := by
  rcases List.mem_cons.1 hi with rfl | hi
  · exact h.made
  · exact Nat.lt_trans ((List.pairwise_cons.1 h.older).1 i hi) h.made

/-- A scope with a fresh frame. -/
lemma extend (h : scope.IsRooted size) : (⟨size, scope.chain⟩ : Scope).IsRooted (size + 1) where
  made := Nat.lt_succ_self size
  older := List.pairwise_cons.2 ⟨fun _ hi => h.lt hi, h.older⟩
  root := by
    show (size :: scope.frame :: scope.outer).getLast? = some 0
    rw [List.getLast?_cons_cons]
    exact h.root

/-- A name that no frame binds but that of the global variables is found there. -/
lemma lookup?_eq (h : scope.IsRooted size) {fs : Frames ρ μ} {name : String}
    (hname : ∀ i ∈ scope.chain, i ≠ 0 → fs.find? i name = none) :
    fs.lookup? scope name = fs.find? 0 name := by
  have hroot := h.root
  unfold Frames.lookup?
  generalize scope.chain = chain at hname hroot
  induction chain with
  | nil => cases hroot
  | cons i chain ih =>
    rw [List.forall_mem_cons] at hname
    unfold Frames.findFirst?
    by_cases hi : i = 0
    · subst hi
      cases hfind : fs.find? 0 name with
      | some b => rfl
      | none =>
        cases chain with
        | nil => rfl
        | cons j chain => exact (ih hname.2 (List.getLast?_cons_cons ▸ hroot)).trans hfind
    · rw [hname.1 hi]
      cases chain with
      | nil => exact absurd (Option.some_inj.1 hroot) hi
      | cons j chain => exact ih hname.2 (List.getLast?_cons_cons ▸ hroot)

end Scope.IsRooted

/-! ## Consistent sessions -/

/-- What holds of a session at all times. -/
structure Session.IsConsistent (s : Session ρ μ) : Prop where
  /-- The functions are registered under their own shapes. -/
  functions : ∀ shape f, s.registry.find? shape = some f → f.Fits shape
  /-- The scope ends with the global frame. -/
  scope : s.scope.IsRooted s.frames.size
  /-- The scopes of the registered functions end with the global frame. -/
  closures : ∀ shape c, s.registry.find? shape = some (.user c) → c.scope.IsRooted s.frames.size

namespace Session

/-- A new session is consistent. -/
lemma isConsistent_start (limits : Limits μ) : (start limits : Session ρ μ).IsConsistent where
  functions shape f h := by
    obtain ⟨b, rfl, hshape⟩ := Registry.eq_builtin_and_shape_of_standard h
    exact hshape
  scope := .global Nat.one_pos
  closures shape c h := absurd h (Registry.find?_standard_ne_user shape c)

variable {s t : Session ρ μ} {scope : Scope}

/-- A consistent session in a fresh frame. -/
lemma IsConsistent.enter (h : s.IsConsistent) (hscope : scope.IsRooted s.frames.size) :
    (s.enter scope).IsConsistent := by
  have hsize : (s.enter scope).frames.size = s.frames.size + 1 := Frames.size_extend _ scope
  refine ⟨h.functions, ?_, fun shape c hc => (h.closures shape c hc).mono (by omega)⟩
  rw [hsize]
  exact hscope.extend

/-- A consistent session in another scope. -/
lemma IsConsistent.inScope (h : t.IsConsistent) (hscope : scope.IsRooted t.frames.size) :
    (t.inScope scope).IsConsistent := ⟨h.functions, hscope, h.closures⟩

/-- A run keeps a session consistent.

**Proof sketch.** By induction over how the session evolves. The scope of a function that is called
was rooted when it was looked up, and no frame is removed while the arguments are evaluated. -/
theorem Evolves.isConsistent (hst : s.Evolves t) (h : s.IsConsistent) : t.IsConsistent := by
  induction hst with
  | refl s => exact h
  | trans _ _ ih ih' => exact ih' (ih h)
  | spend s count => exact ⟨h.functions, h.scope, h.closures⟩
  | assign s name b =>
    have hsize : (s.assign name b).frames.size = s.frames.size := Frames.size_assign ..
    refine ⟨h.functions, hsize ▸ h.scope, fun shape c hc => ?_⟩
    rw [hsize]
    exact h.closures shape c hc
  | @declare s signature body hrepeated =>
    refine ⟨fun shape f hf => ?_, h.scope, fun shape c hc => ?_⟩
    · rw [Dictionary.find?_insert] at hf
      split at hf
      · next hshape =>
        obtain rfl := Option.some_inj.1 hf
        exact ⟨hshape, Signature.repeatedParameter?_eq_none_iff.1 hrepeated⟩
      · exact h.functions shape f hf
    · rw [Dictionary.find?_insert] at hc
      split at hc
      · obtain rfl := Function.user.inj (Option.some_inj.1 hc)
        exact h.scope
      · exact h.closures shape c hc
  | @frame s t hrun ih =>
    have hsize := (Session.size_le_enter s s.scope).trans hrun.size_le
    exact (ih (h.enter h.scope)).inScope (h.scope.mono hsize)
  | @activation s t u shape c hc hargs hrun ih ih' =>
    have ht := ih h
    have hscope := (h.closures shape c hc).mono hargs.size_le
    have hsize := (Session.size_le_enter t c.scope).trans hrun.size_le
    exact (ih' (ht.enter hscope)).inScope (ht.scope.mono hsize)
  | @call s t hrun ih =>
    have ht := ih ⟨h.functions, h.scope, h.closures⟩
    exact ⟨ht.functions, h.scope.mono hrun.size_le, ht.closures⟩

/-! ## Sessions at rest -/

/-- What holds of a session between interactions. -/
structure IsAtRest (s : Session ρ μ) : Prop where
  /-- The scope is that of the global variables. -/
  scope : s.scope = .global
  /-- No call is under way. -/
  depth : s.depth = 0
  /-- Functions and scopes are consistent. -/
  consistent : s.IsConsistent
  /-- The frames around a frame are the same in all scopes. -/
  linked : ∃ outer, s.IsLinked outer

/-- A new session is at rest. -/
lemma isAtRest_start (limits : Limits μ) : (start limits : Session ρ μ).IsAtRest :=
  ⟨rfl, rfl, isConsistent_start limits, _, isLinked_start limits⟩

variable [Roller σ] [Mass μ]

/-- An interaction leaves a session at rest. -/
theorem IsAtRest.after (h : s.IsAtRest) (i : Interaction ρ μ) (r : σ) : (i.after s r).1.IsAtRest := by
  obtain ⟨outer, houter⟩ := h.linked
  cases i with
  | ask q e =>
    have hevolves : s.Evolves ((e.ask q.of).play s r).2.1 := q.play_ask e s r ▸ q.evolves_play s.fuel e s r
    obtain ⟨outer', -, hlinked⟩ := ((q.plan e.plans).links_traced houter r).linked
    have hreturns := hevolves.returns
    exact ⟨hreturns.scope.trans h.scope, hreturns.depth.trans h.depth,
      hevolves.isConsistent h.consistent, outer', q.session_traced e s r ▸ hlinked⟩
  | operation o =>
    obtain ⟨outer', -, hlinked⟩ := (o.links_trace h.scope houter r).linked
    have hsession : (o.trace s r).session = (o.after s r).1 := congrArg (·.2.1) (o.outcome_trace s r)
    rw [hsession] at hlinked
    cases o with
    | bindGlobal name b =>
      have hassign : s.assign name b = s.bindGlobal name b := by
        unfold bindGlobal assign
        rw [h.scope]
      have hconsistent := (Evolves.assign s name b).isConsistent h.consistent
      rw [hassign] at hconsistent
      exact ⟨h.scope, h.depth, hconsistent, outer', hlinked⟩
    | request q =>
      have hevolves := q.evolves_perform h.scope r
      have hrenewed : s.renewed.IsConsistent :=
        ⟨h.consistent.functions, h.consistent.scope, h.consistent.closures⟩
      have hreturns := hevolves.returns
      exact ⟨hreturns.scope.trans h.scope, hreturns.depth, hevolves.isConsistent hrenewed, outer',
        hlinked⟩

/-- Interactions in turn leave a session at rest. -/
lemma IsAtRest.afterAll (h : s.IsAtRest) (is : List (Interaction ρ μ)) (r : σ) :
    (s.afterAll is r).1.IsAtRest := by
  induction is generalizing s r with
  | nil => exact h
  | cons i is ih => exact ih (h.after i r) _

end Session

/-- Whatever is done with a new session, and whether or not it has answers, the session is then at
rest: its scope is that of the global variables and no call is under way; each function is registered
under its own shape, and a declared one has different parameters; each frame has the same frames
around it wherever it occurs, and in the scope of a declared function they become older outwards and
end with that of the global variables, so that a global variable which no other frame of the scope
binds is seen. And at any time every answer of every expression, with any amount of fuel, leaves the
scope and the depth as they were. -/
theorem sessions_stay_consistent [Roller σ] [Mass μ] :
    (∀ (limits : Limits μ) (is : List (Interaction ρ μ)) (r : σ),
      let s := ((Session.start limits).afterAll is r).1
      s.scope = .global ∧ s.depth = 0 ∧
        (∀ shape f, s.registry.find? shape = some f → f.Fits shape) ∧
        (∃ outer, s.IsLinked outer) ∧
        ∀ shape c, s.registry.find? shape = some (.user c) →
          c.scope.IsRooted s.frames.size ∧
            ∀ name, (∀ i ∈ c.scope.chain, i ≠ 0 → s.frames.find? i name = none) →
              s.frames.lookup? c.scope name = s.frames.find? 0 name) ∧
    ∀ (q : Question) (fuel : Nat) (e : Expr ρ) (s : Session ρ μ) (r : σ),
      let t := ((q.of (e.meaning fuel)).play s r).2.1
      t.scope = s.scope ∧ t.depth = s.depth := by
  refine ⟨fun limits is r => ?_, fun q fuel e s r => ?_⟩
  · have hrest := (Session.isAtRest_start limits).afterAll is r
    refine ⟨hrest.scope, hrest.depth, hrest.consistent.functions, hrest.linked, fun shape c hc => ?_⟩
    have hrooted := hrest.consistent.closures shape c hc
    exact ⟨hrooted, fun name hname => hrooted.lookup?_eq hname⟩
  · have hreturns := (q.evolves_play fuel e s r).returns
    exact ⟨hreturns.scope, hreturns.depth⟩

/-- A block binds a variable and declares a function that reads it. A variable that is not bound is
asked for, in vain, and then a global one is bound. The scope of the function has two frames, and the
global variable is seen from it.

**Proof sketch.** What the session is after the interactions is computed: the scope of the function,
and that its inner frame does not bind the name. The theorem then gives the value that is seen from
the scope. -/
theorem sessions_stay_consistent_closure :
    let f : Signature := ⟨"f", .ofList ["n"]⟩
    let block : Expr (WithBot ℚ) :=
      .block [.assign "x" (.literal (.int 1)), .declare f [.output (.var "x")]]
    let two : Binding (WithBot ℚ) ℚ := .value (.number (.int 2))
    let is : List (Interaction (WithBot ℚ) ℚ) :=
      [.operation (.request (.run block)), .ask .value (.var "y"), .operation (.bindGlobal "y" two)]
    let s := ((Session.start ⟨none, some 1, none, 0⟩).afterAll is (⟨1, 1⟩ : Stepper)).1
    s.scope = .global ∧ s.depth = 0 ∧ ∃ c, s.registry.find? f.shape = some (.user c) ∧
      c.scope.chain = [1, 0] ∧ c.scope.IsRooted s.frames.size ∧
      (∀ i ∈ c.scope.chain, i ≠ 0 → s.frames.find? i "y" = none) ∧
      s.frames.lookup? c.scope "y" = s.frames.find? 0 "y" ∧
      (s.frames.find? 0 "y").bind (·.toValue.toNumber.toOption) = some (.int 2) := by
  intro f block two is s
  obtain ⟨hscope, hdepth, -, -, hclosures⟩ :=
    sessions_stay_consistent.1 (⟨none, some 1, none, 0⟩ : Limits ℚ) is (⟨1, 1⟩ : Stepper)
  have hchain : (s.registry.find? f.shape).bind (fun
      | .user c => some c.scope.chain
      | .builtin _ => none) = some [1, 0] := by
    decide +kernel
  have hinner : (s.frames.find? 1 "y").isNone = true := by decide +kernel
  have hglobal : (s.frames.find? 0 "y").bind (·.toValue.toNumber.toOption) = some (.int 2) := by
    decide +kernel
  rcases hc : s.registry.find? f.shape with _ | b | c
  · rw [hc] at hchain
    cases hchain
  · rw [hc] at hchain
    cases hchain
  · rw [hc] at hchain
    have hchain : c.scope.chain = [1, 0] := Option.some_inj.1 hchain
    obtain ⟨hrooted, hlookup⟩ := hclosures f.shape c hc
    have hname : ∀ i ∈ c.scope.chain, i ≠ 0 → s.frames.find? i "y" = none := by
      rw [hchain]
      intro i hi hne
      have hone : i = 1 := by simpa [hne] using hi
      exact hone ▸ Option.isNone_iff_eq_none.1 hinner
    exact ⟨hscope, hdepth, c, rfl, hchain, hrooted, hname, hlookup "y" hname, hglobal⟩

end DiceCalculus
