import DiceCalculus.Proofs.Coverage.Sessions

set_option autoImplicit false
set_option relaxedAutoImplicit false

/-!
# Coverage of the forms of expressions

From sessions of which one covers the other, the law of an expression covers every sample of it. For
each form of expressions this follows from its parts.

## Main definitions

* `Run.Covers`, `Run.CoversStep` — the results of a computation with laws cover those of one with
  samples; statements may also assign.
* `Meaning.IsCovered` — all answers of an expression as a law cover its answers as a sample.

## Main results

* `Meaning.isCovered_literal`, `Meaning.isCovered_binary`, `Meaning.isCovered_dice`,
  `Meaning.isCovered_sequence`, `Meaning.isCovered_var` — the expressions that neither assign nor
  call.

## Design

The law of a roll evaluates the number of dice first and a sample the number of sides, and the law
of an `if` evaluates both branches and a sample only one. So an expression that is evaluated on one
side alone has to leave the sessions covering each other, which is what the contract says.
-/

namespace DiceCalculus

variable {ρ : Type} [Scalar ρ] {R : Registry ρ} {α β : Type}

/-! ## Computations -/

namespace Run

variable {act : Run ρ ℚ α} {sample : Run ρ ℚ β} {P : α → β → Prop} {p : Part}

/-- From sessions of which one covers the other, the results of a computation with laws cover those
of one with samples. -/
def Covers (R : Registry ρ) (act : Run ρ ℚ α) (sample : Run ρ ℚ β) (P : α → β → Prop) : Prop :=
  ∀ ⦃s t⦄, Session.Covers R s t → ∀ ⦃a s' b t'⦄, act.Leads .any s (.ok a) s' →
    sample.Leads .dice t (.ok b) t' → P a b

/-- The same of statements, which assign in fresh frames and keep one session covering the other. -/
def CoversStep (R : Registry ρ) (act : Run ρ ℚ α) (sample : Run ρ ℚ β) (P : α → β → Prop) : Prop :=
  ∀ ⦃s t⦄, Session.CoversFresh R s t → ∀ ⦃a s' b t'⦄, act.Leads .any s (.ok a) s' →
    sample.Leads .dice t (.ok b) t' → s'.CoversFresh R t' ∧ P a b

/-- The contract of plain expressions holds whatever the answers. -/
lemma Leads.plain {Q : α → Prop} (hact : (Contract.plain R).Meets p act Q) {answers : Answers}
    {s s' : Session ρ ℚ} {r : Except (Stop ρ ℚ) α} (hs : (Contract.plain R).inv s)
    (h : act.Leads answers s r s') : (Contract.plain R).inv s' ∧
      (Contract.plain R).after p s s' ∧ (Contract.plain R).Allows Q r :=
  hact s hs r s' (h.mono fun _ _ _ _ => ⟨trivial, trivial, trivial⟩)

end Run

namespace Session

variable {s s' t t' : Session ρ ℚ} {act : Run ρ ℚ α} {Q : α → Prop} {answers : Answers}
  {r : Except (Stop ρ ℚ) α}

/-- An expression that is evaluated among laws alone keeps one session covering the other. -/
lemma Covers.evalLeft (hR : R.IsPlain) (h : s.Covers R t)
    (hact : (Contract.plain R).Meets .expression act Q) (hr : act.Leads answers s r s') :
    s'.Covers R t := by
  obtain ⟨hinv, hafter, -⟩ := hr.plain hact h.left
  exact h.after hinv hafter h.right ((Contract.isSound_plain hR).refl _ t)

/-- An expression that is evaluated among samples alone keeps one session covering the other. -/
lemma Covers.evalRight (hR : R.IsPlain) (h : s.Covers R t)
    (hact : (Contract.plain R).Meets .expression act Q) (hr : act.Leads answers t r t') :
    s.Covers R t' := by
  obtain ⟨hinv, hafter, -⟩ := hr.plain hact h.right
  exact h.after h.left ((Contract.isSound_plain hR).refl _ s) hinv hafter

end Session

namespace Run

variable {act : Run ρ ℚ α} {sample : Run ρ ℚ β} {P : α → β → Prop}

/-- A computation with laws that fails has no results to be covered. -/
lemma covers_fail (e : Fault ρ ℚ) (sample : Run ρ ℚ β) (P : α → β → Prop) :
    Covers R (Run.fail e) sample P := by
  intro s t _ a s' b t' ha _
  cases (leads_fail.1 ha).1

/-- An expression as a statement assigns nothing. -/
lemma Covers.step (h : Covers R act sample P) {Q : α → Prop} {Q' : β → Prop}
    (hact : (Contract.plain R).Meets .expression act Q)
    (hsample : (Contract.plain R).Meets .expression sample Q') : CoversStep R act sample P := by
  intro s t hst a s' b t' ha hb
  obtain ⟨hs, hs', -⟩ := ha.plain hact hst.covers.left
  obtain ⟨ht, ht', -⟩ := hb.plain hsample hst.covers.right
  exact ⟨⟨hst.covers.after hs hs' ht ht', hst.left.after hs', hst.right.after ht'⟩,
    h hst.covers ha hb⟩

/-- A function of results of statements. -/
lemma CoversStep.map {γ δ : Type} {f : α → γ} {g : β → δ} {P' : γ → δ → Prop}
    (h : CoversStep R act sample P) (hP : ∀ a b, P a b → P' (f a) (g b)) :
    CoversStep R (act >>= fun a => pure (f a)) (sample >>= fun b => pure (g b)) P' := by
  intro s t hst c s' d t' hc hd
  obtain ⟨a, ha, rfl⟩ := leads_bind_pure_ok.1 hc
  obtain ⟨b, hb, rfl⟩ := leads_bind_pure_ok.1 hd
  obtain ⟨hst', hab⟩ := h hst ha hb
  exact ⟨hst', hP a b hab⟩

/-- A function of results. -/
lemma Covers.map {γ δ : Type} {f : α → γ} {g : β → δ} {P' : γ → δ → Prop}
    (h : Covers R act sample P) (hP : ∀ a b, P a b → P' (f a) (g b)) :
    Covers R (act >>= fun a => pure (f a)) (sample >>= fun b => pure (g b)) P' := by
  intro s t hst c s' d t' hc hd
  obtain ⟨a, ha, rfl⟩ := leads_bind_pure_ok.1 hc
  obtain ⟨b, hb, rfl⟩ := leads_bind_pure_ok.1 hd
  exact hP a b (h hst ha hb)

/-- Computations for every item of a list cover each other item by item. -/
lemma Covers.mapM (hR : R.IsPlain) {γ : Type} {xs : List γ} {f : γ → Run ρ ℚ α}
    {g : γ → Run ρ ℚ β} {Q : α → Prop} {Q' : β → Prop}
    (hf : ∀ x ∈ xs, (Contract.plain R).Meets .expression (f x) Q)
    (hg : ∀ x ∈ xs, (Contract.plain R).Meets .expression (g x) Q')
    (h : ∀ x ∈ xs, Covers R (f x) (g x) P) :
    Covers R (xs.mapM f) (xs.mapM g) (List.Forall₂ P) := by
  induction xs with
  | nil =>
    intro s t _ as s' bs t' has hbs
    obtain ⟨has, -⟩ := leads_pure.1 has
    obtain ⟨hbs, -⟩ := leads_pure.1 hbs
    rw [Except.ok.inj has, Except.ok.inj hbs]
    exact .nil
  | cons x xs ih =>
    rw [List.forall_mem_cons] at hf hg h
    intro s t hst as s' bs t' has hbs
    rw [List.mapM_cons] at has hbs
    obtain ⟨a, s₁, ha, has⟩ := leads_bind_ok.1 has
    obtain ⟨b, t₁, hb, hbs⟩ := leads_bind_ok.1 hbs
    obtain ⟨as₁, has₁, rfl⟩ := leads_bind_pure_ok.1 has
    obtain ⟨bs₁, hbs₁, rfl⟩ := leads_bind_pure_ok.1 hbs
    have hst₁ := (hst.evalLeft hR hf.1 ha).evalRight hR hg.1 hb
    exact .cons (h.1 hst ha hb) (ih hf.2 hg.2 h.2 hst₁ has₁ hbs₁)

/-- A statement in a fresh frame is an expression. -/
lemma CoversStep.inFreshFrame (hR : R.IsPlain) (h : CoversStep R act sample P) :
    Covers R (inFreshFrame act) (inFreshFrame sample) P := by
  intro s t hst a s' b t' ha hb
  obtain ⟨s₁, ha, -⟩ := leads_inFreshFrame.1 ha
  obtain ⟨t₁, hb, -⟩ := leads_inFreshFrame.1 hb
  have hc := Contract.isSound_plain hR
  exact (h (hst.enter hR (hc.inside hst.left) (hc.inside hst.right) hst.scope) ha hb).2

end Run

/-! ## Meanings -/

/-- All answers of an expression as a law cover its answers as a sample. -/
structure Meaning.IsCovered (R : Registry ρ) (x : Meaning ρ ℚ) : Prop where
  keeps : (Contract.plain R).Covers x
  value : Run.Covers R x.law x.value Law.Covers
  items : Run.Covers R x.laws x.items Law.CoverItems
  stored : Run.Covers R (x.stored .exact) (x.stored .sample) Binding.Covers
  step : Run.CoversStep R (x.step .exact) (x.step .sample) Flow.Covers

namespace Meaning

variable {x : Meaning ρ ℚ} {s s' s₁ s₂ t t' : Session ρ ℚ} {l l' : Law ρ ℚ}

/-- The law of an expression has mass one, and one session goes on to cover the other. -/
lemma IsCovered.leads_law (hR : R.IsPlain) (hx : x.IsCovered R)
    (hl : x.law.Leads .any s (.ok l) s') (h : s.Covers R t) : l.IsNormalized ∧ s'.Covers R t := by
  obtain ⟨-, -, hlaw⟩ := hl.plain hx.keeps.law h.left
  exact ⟨hlaw.1, h.evalLeft hR hx.keeps.law hl⟩

/-- The number that an expression is sampled to has mass, and whatever session covered the one
before goes on to cover it. -/
lemma IsCovered.leads_number (hR : R.IsPlain) (hx : x.IsCovered R) (h : s.Covers R t)
    (hl : x.law.Leads .any s (.ok l) s') {f : Number ρ → Run ρ ℚ β} {b : β}
    (hv : (do f (← Run.ofExcept (← x.value).toNumber)).Leads .dice t (.ok b) t') :
    ∃ n t₁, l.Supports (.number n) ∧ (∀ s₀ : Session ρ ℚ, s₀.Covers R t → s₀.Covers R t₁) ∧
      (f n).Leads .dice t₁ (.ok b) t' := by
  obtain ⟨v, t₁, hvalue, hv⟩ := Run.leads_bind_ok.1 hv
  obtain ⟨n, t₂, hn, hb⟩ := Run.leads_bind_ok.1 hv
  obtain ⟨hnumber, rfl⟩ := Run.leads_ofExcept_ok.1 hn
  obtain ⟨n', rfl, hsupports⟩ := hx.value h hl hvalue
  obtain rfl := Except.ok.inj hnumber
  exact ⟨n', t₂, hsupports, fun s₀ h₀ => h₀.evalRight hR hx.keeps.value hvalue, hb⟩

/-- An expression that is its own only component. -/
lemma isCovered_ofViews {value : Run ρ ℚ (Value ρ ℚ)} {law : Run ρ ℚ (Law ρ ℚ)}
    (hkeeps : (Contract.plain R).Covers (.ofViews value law))
    (h : Run.Covers R law value Law.Covers) : (ofViews value law).IsCovered R where
  keeps := hkeeps
  value := h
  items := h.map fun l v hlv => hlv.coverItems
  stored := h.map fun l v hlv => by
    obtain ⟨x, rfl, hx⟩ := hlv
    exact .law hx
  step := (h.step hkeeps.law hkeeps.value).map fun l v hlv => .next (.some hlv)

/-- A statement without value and law. -/
lemma isCovered_ofStatement (kind : Kind) {step : (m : Mode) → Run ρ ℚ (Flow (m.Answer ρ ℚ))}
    (hkeeps : (Contract.plain R).Covers (.ofStatement kind step))
    (hstep : Run.CoversStep R (step .exact) (step .sample) Flow.Covers) :
    (ofStatement kind step).IsCovered R := by
  exact
    { keeps := hkeeps
      value := Run.covers_fail ..
      items := Run.covers_fail ..
      stored := Run.covers_fail ..
      step := hstep }

/-! ## Numbers, operators and rolls -/

/-- A number. -/
theorem isCovered_literal (hR : R.IsPlain) (x : Number ρ) : (literal x : Meaning ρ ℚ).IsCovered R := by
  refine isCovered_ofViews (Contract.covers_literal (Contract.isSound_plain hR) x) ?_
  intro s t _ l s' v t' hl hv
  obtain ⟨hl, -⟩ := Run.leads_pure.1 hl
  obtain ⟨hv, -⟩ := Run.leads_pure.1 hv
  rw [Except.ok.inj hl, Except.ok.inj hv]
  exact ⟨x, rfl, Law.supports_certain _⟩

/-- An operator between two expressions. -/
theorem isCovered_binary (hρ : Scalar.IsCongruent ρ) (hR : R.IsPlain) (op : Operator)
    {y : Meaning ρ ℚ} (hx : x.IsCovered R) (hy : y.IsCovered R) : (binary op x y).IsCovered R := by
  refine isCovered_ofViews
    (Contract.covers_binary (Contract.isSound_plain hR) op hx.keeps hy.keeps) ?_
  intro s t hst d s' v t' hd hv
  obtain ⟨l, s₁, hl, hd⟩ := Run.leads_bind_ok.1 hd
  obtain ⟨l', s₂, hl', hd⟩ := Run.leads_bind_ok.1 hd
  obtain ⟨hd, -⟩ := Run.leads_calculate_ok.1 hd
  obtain ⟨m, t₁, hm, hright, hv⟩ := hx.leads_number hR hst hl hv
  obtain ⟨hone, hst₁⟩ := hx.leads_law hR hl (hright s hst)
  obtain ⟨n, t₂, hn, -, hv⟩ := hy.leads_number hR hst₁ hl' hv
  obtain ⟨hone', -⟩ := hy.leads_law hR hl' hst₁
  obtain ⟨z, hz, rfl⟩ := Run.leads_bind_pure_ok.1 hv
  obtain ⟨happly, -⟩ := Run.leads_ofExcept_ok.1 hz
  exact ⟨z, rfl, Law.supports_operate (hρ op) hone.nonneg hone'.nonneg hd hm hn
    (Operator.apply_eq_ok_iff.1 happly)⟩

/-- The faces of a roll are those of a roll whose operands have mass. -/
lemma leads_faces (hR : R.IsPlain) {count sides : Meaning ρ ℚ} (hcount : count.IsCovered R)
    (hsides : sides.IsCovered R) (hst : s.Covers R t) (hl : count.law.Leads .any s (.ok l) s₁)
    (hl' : sides.law.Leads .any s₁ (.ok l') s₂) {xs : List (Number ρ)}
    (hxs : (faces count sides).Leads .dice t (.ok xs) t') :
    l.IsNormalized ∧ l'.IsNormalized ∧ ∃ x y n m shown, l.Supports (.number x) ∧
      Dice.count (μ := ℚ) x = .ok n ∧ l'.Supports (.number y) ∧ Dice.sides (μ := ℚ) y = .ok m ∧
      IsRoll n m shown ∧ xs = shown.map fun face => .int face.toInt32 := by
  obtain ⟨hone, hst₁⟩ := hcount.leads_law hR hl hst
  obtain ⟨hone', -⟩ := hsides.leads_law hR hl' hst₁
  obtain ⟨y, t₁, hy, hright, h₁⟩ := hsides.leads_number hR hst₁ hl' hxs
  obtain ⟨m, t₂, hm, h₂⟩ := Run.leads_bind_ok.1 h₁
  obtain ⟨hm', rfl⟩ := Run.leads_ofExcept_ok.1 hm
  obtain ⟨x, t₃, hx, -, h₃⟩ := hcount.leads_number hR (hright s hst) hl h₂
  obtain ⟨n, t₄, hn, h₄⟩ := Run.leads_bind_ok.1 h₃
  obtain ⟨hn', rfl⟩ := Run.leads_ofExcept_ok.1 hn
  obtain ⟨shown, hshown, rfl⟩ := Run.leads_bind_pure_ok.1 h₄
  obtain ⟨-, hroll⟩ := Run.leads_roll.1 hshown
  split at hroll
  · obtain ⟨faces, hfaces, heq⟩ := hroll
    obtain rfl := Except.ok.inj heq
    obtain ⟨hpos, hlt⟩ := Dice.sides_bounds hm'
    exact ⟨hone, hone', x, y, n, m, shown, hx, hn', hy, hm',
      hfaces hpos (hlt.trans (by decide)), rfl⟩
  · cases hroll

/-- A roll. -/
theorem isCovered_dice (hρ : Scalar.IsCongruent ρ) (hR : R.IsPlain) {count sides : Meaning ρ ℚ}
    (hcount : count.IsCovered R) (hsides : sides.IsCovered R) : (dice count sides).IsCovered R := by
  have hkeeps := Contract.covers_dice (Contract.isSound_plain hR) hcount.keeps hsides.keeps
  have hwhole := isCovered_ofViews
    (Contract.covers_ofViews (Contract.isSound_plain hR) hkeeps.value hkeeps.law) ?_
  · refine { hwhole with keeps := hkeeps, items := ?_ }
    intro s t hst ds s' vs t' hds hvs
    obtain ⟨l, s₁, hl, hds⟩ := Run.leads_bind_ok.1 hds
    obtain ⟨l', s₂, hl', hds⟩ := Run.leads_bind_ok.1 hds
    obtain ⟨hds, -⟩ := Run.leads_calculate_ok.1 hds
    obtain ⟨xs, hxs, rfl⟩ := Run.leads_bind_pure_ok.1 hvs
    obtain ⟨hone, hone', x, y, n, m, shown, hx, hn, hy, hm, hshown, rfl⟩ :=
      leads_faces hR hcount hsides hst hl hl' hxs
    obtain ⟨missing, hmissing⟩ := Dice.supports_laws hone hone'.nonneg hds hx hn hy hm hshown
    refine ⟨_, missing, rfl, ?_⟩
    rwa [List.map_map]
  · intro s t hst d s' v t' hd hv
    obtain ⟨l, s₁, hl, hd⟩ := Run.leads_bind_ok.1 hd
    obtain ⟨l', s₂, hl', hd⟩ := Run.leads_bind_ok.1 hd
    obtain ⟨hd, -⟩ := Run.leads_calculate_ok.1 hd
    obtain ⟨xs, hxs, rfl⟩ := Run.leads_bind_pure_ok.1 hv
    obtain ⟨hone, hone', x, y, n, m, shown, hx, hn, hy, hm, hshown, rfl⟩ :=
      leads_faces hR hcount hsides hst hl hl' hxs
    exact ⟨_, rfl, Dice.supports_law (hρ .add) hone.nonneg hone'.nonneg hd hx hn hy hm hshown⟩

/-! ## Sequences and variables -/

/-- A sequence. -/
theorem isCovered_sequence (hR : R.IsPlain) {xs : List (Meaning ρ ℚ)}
    (hxs : ∀ x ∈ xs, x.IsCovered R) : (sequence xs).IsCovered R := by
  have hitems : Run.Covers R (xs.mapM (·.law)) (xs.mapM (·.value)) fun ls vs =>
      ∃ ns : List (Number ρ), vs = ns.map .number ∧ List.Forall₂ Law.Supports ls (ns.map .number) := by
    intro s t hst ls s' vs t' hls hvs
    refine Law.exists_of_forall₂_covers (Run.Covers.mapM hR (fun x hx => (hxs x hx).keeps.law)
      (fun x hx => (hxs x hx).keeps.value) (fun x hx => (hxs x hx).value) hst hls hvs)
  have hkeeps := Contract.covers_sequence (Contract.isSound_plain hR) fun x hx => (hxs x hx).keeps
  have hwhole := isCovered_ofViews
    (Contract.covers_ofViews (Contract.isSound_plain hR) hkeeps.value hkeeps.law)
    (Run.covers_fail ..)
  refine { hwhole with keeps := hkeeps, items := ?_, stored := ?_ }
  · intro s t hst ls s' vs t' hls hvs
    obtain ⟨ns, rfl, hns⟩ := hitems hst hls hvs
    exact Law.coverItems_of_forall₂ hns
  · intro s t hst b s' b' t' hb hb'
    obtain ⟨ls, hls, rfl⟩ := Run.leads_bind_pure_ok.1 hb
    obtain ⟨v, hv, rfl⟩ := Run.leads_bind_pure_ok.1 hb'
    obtain ⟨vs, hvs, rfl⟩ := Run.leads_bind_pure_ok.1 hv
    obtain ⟨ns, rfl, hns⟩ := hitems hst hls hvs
    exact .laws hns

/-- What a variable holds is covered. -/
lemma covers_lookup (name : String) :
    Run.Covers R (Run.lookup name) (Run.lookup name) Binding.Covers := by
  intro s t hst b s' b' t' hb hb'
  obtain ⟨hb, -⟩ := Run.leads_lookup_ok.1 hb
  obtain ⟨hb', -⟩ := Run.leads_lookup_ok.1 hb'
  have hname := hst.scope.findFirst? name
  rw [show s.frames.findFirst? name s.scope.chain = some b from hb,
    show t.frames.findFirst? name t.scope.chain = some b' from hb'] at hname
  cases hname with
  | some h => exact h

/-- A variable. -/
theorem isCovered_var (hR : R.IsPlain) (name : String) :
    (var name : Meaning ρ ℚ).IsCovered R := by
  have hkeeps := Contract.covers_var (Contract.isSound_plain hR) name
  have hwhole := isCovered_ofViews
    (Contract.covers_ofViews (Contract.isSound_plain hR) hkeeps.value hkeeps.law) ?_
  · refine { hwhole with keeps := hkeeps, items := ?_, stored := ?_ }
    · intro s t hst ls s' vs t' hls hvs
      obtain ⟨b, s₁, hb, hls⟩ := Run.leads_bind_ok.1 hls
      obtain ⟨b', hb', rfl⟩ := Run.leads_bind_pure_ok.1 hvs
      exact (covers_lookup name hst hb hb').toLaws (Run.leads_ofExcept_ok.1 hls).1
    · intro s t hst b s' c t' hb hc
      obtain ⟨v, hv, rfl⟩ := Run.leads_bind_pure_ok.1 hc
      obtain ⟨b', hb', rfl⟩ := Run.leads_bind_pure_ok.1 hv
      exact (covers_lookup name hst hb hb').value_toValue
  · intro s t hst l s' v t' hl hv
    obtain ⟨b, s₁, hb, hl⟩ := Run.leads_bind_ok.1 hl
    obtain ⟨b', hb', rfl⟩ := Run.leads_bind_pure_ok.1 hv
    exact (covers_lookup name hst hb hb').toLaw (Run.leads_ofExcept_ok.1 hl).1

end Meaning

end DiceCalculus
