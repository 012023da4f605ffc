import DiceCalculus.Proofs.Agreement.Forms
import DiceCalculus.Proofs.Coverage.Forms

set_option autoImplicit false
set_option relaxedAutoImplicit false

/-!
# Coverage of statements and calls

A block runs its statements in a fresh frame, and so does the activation of a function. Statements
that assign in fresh frames keep the session of laws covering that of samples, hence what a block
or a call comes to as a law covers what it comes to as a sample.

## Main results

* `Meaning.isCovered_assign`, `Meaning.isCovered_output`, `Meaning.isCovered_block` — statements.
* `Meaning.isCovered_call` — calls of whatever function is registered, but not of the one that takes
  a law as a value.
* `Expr.isCovered_meaning` — every plain expression.

## Design

In both modes a call evaluates its arguments in the same order, and binds the same parameters. The
bodies are run with less fuel, so that coverage of all expressions goes by induction on the fuel
first and on the expression second, as the meaning of an expression does.
-/

namespace DiceCalculus

variable {ρ : Type} [Scalar ρ] {R : Registry ρ}

/-- Absent dice have no part in the greatest of numbers. -/
lemma Atom.foldl_max_absent (x : Number ρ) (xs : List (Number ρ)) (missing : Nat) :
    (xs.map Atom.number ++ List.replicate missing Atom.absent).foldl Atom.max (.number x) =
      .number (xs.foldl Number.max x) := by
  have hnumber (x y : Number ρ) : Atom.max (.number x) (.number y) = .number (Number.max x y) :=
    (apply_ite Atom.number (compare x y = .gt) x y).symm
  have habsent (y : Number ρ) : Atom.max (.number y) .absent = .number y := rfl
  induction xs generalizing x with
  | nil =>
    induction missing with
    | zero => rfl
    | succ missing ih => rwa [List.replicate_succ, List.map_nil, List.nil_append, List.foldl_cons, habsent]
  | cons y ys ih =>
    rw [List.map_cons, List.cons_append, List.foldl_cons, List.foldl_cons, hnumber]
    exact ih _

/-! ## Statements -/

namespace Meaning

variable {x : Meaning ρ ℚ}

/-- An assignment. -/
theorem isCovered_assign (hR : R.IsPlain) (name : String) (hx : x.IsCovered R) :
    (assign name x).IsCovered R := by
  refine isCovered_ofStatement .assignment
    (Contract.covers_assign (Contract.isSound_plain hR) name hx.keeps) ?_
  intro s t hst f s' f' t' hf hf'
  obtain ⟨b, s₁, hb, hf⟩ := Run.leads_bind_ok.1 hf
  obtain ⟨b', t₁, hb', hf'⟩ := Run.leads_bind_ok.1 hf'
  obtain ⟨hst₁, hbb'⟩ := hx.stored.step (hx.keeps.stored .exact) (hx.keeps.stored .sample) hst hb hb'
  obtain ⟨-, -, hlaws⟩ := hb.plain (hx.keeps.stored .exact) hst.covers.left
  obtain ⟨-, -, hlaws'⟩ := hb'.plain (hx.keeps.stored .sample) hst.covers.right
  obtain ⟨_, hassign, rfl⟩ := Run.leads_bind_pure_ok.1 hf
  obtain ⟨_, hassign', rfl⟩ := Run.leads_bind_pure_ok.1 hf'
  obtain ⟨-, rfl⟩ := Run.leads_assign.1 hassign
  obtain ⟨-, rfl⟩ := Run.leads_assign.1 hassign'
  exact ⟨hst₁.assign hR name hbb' hlaws hlaws', .next .none⟩

/-- An output. -/
theorem isCovered_output (hR : R.IsPlain) (hx : x.IsCovered R) : (output x).IsCovered R := by
  refine isCovered_ofStatement .output
    (Contract.covers_output (Contract.isSound_plain hR) hx.keeps) ?_
  exact (hx.value.step hx.keeps.law hx.keeps.value).map fun l v hlv => .ended hlv

/-- Statements that are run in fresh frames. -/
lemma coversStep_runFrom {xs : List (Meaning ρ ℚ)} (hxs : ∀ x ∈ xs, x.IsCovered R)
    {last : Option (Law ρ ℚ)} {last' : Option (Value ρ ℚ)}
    (hlast : Option.Rel Law.Covers last last') :
    Run.CoversStep R (runFrom .exact last xs) (runFrom .sample last' xs) Flow.Covers := by
  induction xs generalizing last last' with
  | nil =>
    intro s t hst f s' f' t' hf hf'
    obtain ⟨hflow, rfl⟩ := Run.leads_pure.1 hf
    obtain ⟨hflow', rfl⟩ := Run.leads_pure.1 hf'
    rw [Except.ok.inj hflow, Except.ok.inj hflow']
    exact ⟨hst, .next hlast⟩
  | cons x xs ih =>
    rw [List.forall_mem_cons] at hxs
    intro s t hst f s' f' t' hf hf'
    obtain ⟨g, s₁, hg, hf⟩ := Run.leads_bind_ok.1 hf
    obtain ⟨g', t₁, hg', hf'⟩ := Run.leads_bind_ok.1 hf'
    obtain ⟨hst₁, hflow⟩ := hxs.1.step hst hg hg'
    cases hflow with
    | next h => exact ih hxs.2 h hst₁ hf hf'
    | ended h =>
      obtain ⟨hended, rfl⟩ := Run.leads_pure.1 hf
      obtain ⟨hended', rfl⟩ := Run.leads_pure.1 hf'
      rw [Except.ok.inj hended, Except.ok.inj hended']
      exact ⟨hst₁, .ended h⟩

/-- The value of statements that are run in fresh frames. -/
lemma coversStep_resultOf {xs : List (Meaning ρ ℚ)} (hxs : ∀ x ∈ xs, x.IsCovered R) :
    Run.CoversStep R (resultOf .exact xs) (resultOf .sample xs) Law.Covers := by
  intro s t hst l s' v t' hl hv
  obtain ⟨f, s₁, hf, hl⟩ := Run.leads_bind_ok.1 hl
  obtain ⟨f', t₁, hf', hv⟩ := Run.leads_bind_ok.1 hv
  obtain ⟨hresult, rfl⟩ := Run.leads_ofExcept_ok.1 hl
  obtain ⟨hresult', rfl⟩ := Run.leads_ofExcept_ok.1 hv
  obtain ⟨hst₁, hflow⟩ := coversStep_runFrom hxs .none hst hf hf'
  refine ⟨hst₁, ?_⟩
  cases hflow with
  | next h =>
    cases h with
    | none => cases hresult
    | some h => exact Except.ok.inj hresult ▸ Except.ok.inj hresult' ▸ h
  | ended h => exact Except.ok.inj hresult ▸ Except.ok.inj hresult' ▸ h

/-- A block. -/
theorem isCovered_block (hR : R.IsPlain) {xs : List (Meaning ρ ℚ)}
    (hxs : ∀ x ∈ xs, x.IsCovered R) : (block xs).IsCovered R := by
  have hc := Contract.isSound_plain hR
  have hkeeps := Contract.covers_block hc fun x hx => (hxs x hx).keeps
  have hwhole := isCovered_ofViews (Contract.covers_ofViews hc hkeeps.value hkeeps.law)
    ((coversStep_resultOf hxs).inFreshFrame hR)
  have hrun (m : Mode) : (Contract.plain R).Meets .expression
      (Run.inFreshFrame (runAll m xs)) (Flow.Holds (m.HasLaws (Contract.plain R).law)) :=
    Contract.meets_inFreshFrame hc (Contract.meets_runAll hc m fun x hx => (hxs x hx).keeps)
  exact { hwhole with
    keeps := hkeeps
    step := ((coversStep_runFrom hxs .none).inFreshFrame hR).step (hrun .exact) (hrun .sample) }

/-! ## Built-in functions -/

section Calls

variable {args : Slots (Meaning ρ ℚ)} (hargs : ∀ x ∈ args.items, x.IsCovered R)

omit hargs in
/-- An argument is the same in both modes, and reading it changes nothing. -/
lemma isCovered_of_argument {read : Except (Fault ρ ℚ) (Meaning ρ ℚ)}
    (hread : ∀ x, read = .ok x → x.IsCovered R) {x x' : Meaning ρ ℚ} {s s' t t' : Session ρ ℚ}
    (hx : (Run.ofExcept read).Leads .any s (.ok x) s')
    (hx' : (Run.ofExcept read).Leads .dice t (.ok x') t') :
    x.IsCovered R ∧ x' = x ∧ s' = s ∧ t' = t := by
  obtain ⟨h, hs⟩ := Run.leads_ofExcept_ok.1 hx
  obtain ⟨h', ht⟩ := Run.leads_ofExcept_ok.1 hx'
  exact ⟨hread x h, Except.ok.inj (h'.symm.trans h), hs, ht⟩

include hargs

/-- The greatest item. -/
lemma covers_max :
    Run.Covers R (Builtin.exact args .max) (Builtin.value args .max) Law.Covers := by
  intro s t hst d s' v t' hd hv
  obtain ⟨x, s₁, hx, hd₁⟩ := Run.leads_bind_ok.1 hd
  obtain ⟨x', t₁, hx', hv₁⟩ := Run.leads_bind_ok.1 hv
  obtain ⟨hcovered, rfl, rfl, rfl⟩ := isCovered_of_argument (fun x h => hargs x (Slots.mem_items_of_nth h)) hx hx'
  obtain ⟨ls, s₂, hls, hd₂⟩ := Run.leads_bind_ok.1 hd₁
  obtain ⟨hd₃, -⟩ := Run.leads_calculate_ok.1 hd₂
  obtain ⟨vs, t₂, hvs, hv₂⟩ := Run.leads_bind_ok.1 hv₁
  obtain ⟨ns, hns, rfl⟩ := Run.leads_bind_pure_ok.1 hv₂
  obtain ⟨xs, missing, rfl, hsupports⟩ := hcovered.items hst hls hvs
  obtain rfl := Except.ok.inj ((Value.mapM_toNumber xs).symm.trans (Run.leads_ofExcept_ok.1 hns).1)
  obtain ⟨-, -, hlaws⟩ := hls.plain hcovered.keeps.laws hst.left
  refine ⟨_, rfl, ?_⟩
  rw [← Atom.foldl_max_absent _ xs missing]
  exact Law.supports_maximum (fun l hl => (hlaws l hl).1.nonneg) hsupports hd₃

/-- A branch that is weighted by its chance has a law, if there is a chance, and the sessions go
on to cover each other. -/
lemma leads_mixBranch (hR : R.IsPlain) {s s' t : Session ρ ℚ} (hst : s.Covers R t)
    {keyword : String} {chance : ℚ} {mixture d : Law ρ ℚ}
    (h : (Builtin.mixBranch args keyword chance mixture).Leads .any s (.ok d) s') :
    s'.Covers R t ∧ ∃ l, d = mixture.addPositive chance l ∧
      (Mass.isPositive chance = true → ∃ x, x ∈ args.items ∧
        args.firstOf (ρ := ρ) (μ := ℚ) keyword = .ok x ∧
        ∃ s₁, s₁.Covers R t ∧ x.law.Leads .any s₁ (.ok l) s') := by
  unfold Builtin.mixBranch at h
  unfold Law.addPositive
  split at h
  · next hpos =>
    obtain ⟨x, s₁, hx, h₁⟩ := Run.leads_bind_ok.1 h
    obtain ⟨l, hl, rfl⟩ := Run.leads_bind_pure_ok.1 h₁
    obtain ⟨hfirst, rfl⟩ := Run.leads_ofExcept_ok.1 hx
    have hmem := Slots.mem_items_of_firstOf hfirst
    refine ⟨hst.evalLeft hR (hargs x hmem).keeps.law hl, l, by rw [if_pos hpos], fun _ => ?_⟩
    exact ⟨x, hmem, hfirst, _, hst, hl⟩
  · next hpos =>
    obtain ⟨hd, rfl⟩ := Run.leads_pure.1 h
    exact ⟨hst, .empty, by rw [if_neg hpos, Except.ok.inj hd], fun hpos' => absurd hpos' hpos⟩

/-- The branch that a test chooses.

**Proof sketch.** The law of the test gives mass to the number that is sampled. If this is zero, so
is an outcome with mass, hence the chance of the second branch is positive, its law is taken into
the mixture, and it gives mass to the sample of that branch. Otherwise the same is so of the first
one. A mixture gives mass to all that a law does that it takes in. -/
lemma covers_branch (hR : R.IsPlain) :
    Run.Covers R (Builtin.exact args .branch) (Builtin.value args .branch) Law.Covers := by
  intro s t hst d s' v t' hd hv
  obtain ⟨x, s₁, hx, hd₁⟩ := Run.leads_bind_ok.1 hd
  obtain ⟨x', t₁, hx', hv₁⟩ := Run.leads_bind_ok.1 hv
  obtain ⟨hcovered, rfl, rfl, rfl⟩ := isCovered_of_argument (fun x h => hargs x (Slots.mem_items_of_nth h)) hx hx'
  obtain ⟨test, s₂, htest, hd₂⟩ := Run.leads_bind_ok.1 hd₁
  obtain ⟨n, t₂, hn, hright, hv₂⟩ := hcovered.leads_number hR hst htest hv₁
  obtain ⟨hone, hst₂⟩ := hcovered.leads_law hR htest (hright _ hst)
  obtain ⟨mixture, s₃, hthen, helse⟩ := Run.leads_bind_ok.1 hd₂
  obtain ⟨hst₃, l, rfl, hl⟩ := leads_mixBranch hargs hR hst₂ hthen
  obtain ⟨-, l', rfl, hl'⟩ := leads_mixBranch hargs hR hst₃ helse
  obtain ⟨y, t₃, hy, hv₃⟩ := Run.leads_bind_ok.1 hv₂
  obtain ⟨hfirst, rfl⟩ := Run.leads_ofExcept_ok.1 hy
  have hnonneg {chance : ℚ} {keyword : String} {l : Law ρ ℚ} {s' : Session ρ ℚ}
      (hl : Mass.isPositive chance = true → ∃ x, x ∈ args.items ∧
        args.firstOf (ρ := ρ) (μ := ℚ) keyword = .ok x ∧
        ∃ s₁, s₁.Covers R t₃ ∧ x.law.Leads .any s₁ (.ok l) s') :
      Mass.isPositive chance = true → l.Each fun _ p => 0 ≤ p := fun hpos => by
    obtain ⟨x, hmem, -, s₁, hs₁, hl⟩ := hl hpos
    exact ((hargs x hmem).leads_law hR hl hs₁).1.nonneg
  -- the branch that is sampled is one that the mixture takes in
  have hchosen {chance : ℚ} {keyword : String} {l : Law ρ ℚ} {s' : Session ρ ℚ}
      (hl : Mass.isPositive chance = true → ∃ x, x ∈ args.items ∧
        args.firstOf (ρ := ρ) (μ := ℚ) keyword = .ok x ∧
        ∃ s₁, s₁.Covers R t₃ ∧ x.law.Leads .any s₁ (.ok l) s')
      (hpos : 0 < chance) (hy : args.firstOf (ρ := ρ) (μ := ℚ) keyword = .ok y) : l.Covers v := by
    obtain ⟨x, hmem, hx, s₁, hs₁, hl⟩ := hl ((Mass.isPositive_iff _).2 hpos)
    obtain rfl := Except.ok.inj (hx.symm.trans hy)
    exact (hargs x hmem).value hs₁ hl hv₃
  cases hzero : n.isZero with
  | true =>
    rw [hzero] at hfirst
    have hpos := Law.massOf_zero_pos hn hzero
    obtain ⟨z, rfl, hz⟩ := hchosen hl' hpos hfirst
    exact ⟨z, rfl, Law.supports_mixture hone.nonneg (hnonneg hl) (hnonneg hl') (.inr ⟨hpos, hz⟩)⟩
  | false =>
    rw [hzero] at hfirst
    have hpos := Law.chanceOfNonzero_pos hone.nonneg hn hzero
    obtain ⟨z, rfl, hz⟩ := hchosen hl hpos hfirst
    exact ⟨z, rfl, Law.supports_mixture hone.nonneg (hnonneg hl) (hnonneg hl') (.inl ⟨hpos, hz⟩)⟩

/-- A built-in function that does not take a law as a value. -/
lemma covers_builtin (hR : R.IsPlain) {b : Builtin} (hb : b ≠ .law) :
    Run.Covers R (b.exact args) (b.value args) Law.Covers := by
  cases b with
  | max => exact covers_max hargs
  | branch => exact covers_branch hargs hR
  | law => exact absurd rfl hb

/-! ## Declared functions -/

/-- What the parameters of a function hold. -/
lemma covers_closure_bind (hR : R.IsPlain) (signature : Signature) :
    Run.Covers R (Closure.bind signature args .exact) (Closure.bind signature args .sample)
      (List.Forall₂ fun b b' => b.1 = b'.1 ∧ Binding.Covers b.2 b'.2) := by
  have hmem {a : String × Meaning ρ ℚ} (ha : a ∈ signature.parameters.zip args) :
      a.2.IsCovered R := hargs a.2 (Slots.mem_items_of_mem_zip ha)
  have hmeets (m : Mode) (a : String × Meaning ρ ℚ) (ha : a ∈ signature.parameters.zip args) :
      (Contract.plain R).Meets .expression (do return (a.1, ← a.2.stored m))
        fun b => b.2.HasLaws (Contract.plain R).law :=
    Contract.meets_map (Contract.isSound_plain hR) ((hmem ha).keeps.stored m) fun _ hb => hb
  exact .mapM hR (hmeets .exact) (hmeets .sample) fun a ha =>
    (hmem ha).stored.map fun b b' hbb' => ⟨rfl, hbb'⟩

omit hargs in
/-- The law of a body covers its samples if it is run in fresh frames. -/
def CoversBodies (R : Registry ρ) (enter : Enter ρ ℚ) : Prop :=
  ∀ body : List (Expr ρ), (∀ e ∈ body, e.Every (Expr.IsPlain R)) →
    Run.CoversStep R (enter body .exact) (enter body .sample) Law.Covers

variable {enter : Enter ρ ℚ} (henter : CoversBodies R enter)

include henter

/-- The activation of a function. -/
lemma covers_activate (hR : R.IsPlain) {shape : Shape} {f : Closure ρ}
    (hf : R.find? shape = some (.user f)) :
    Run.Covers R (f.activate enter args .exact) (f.activate enter args .sample) Law.Covers := by
  have hc := Contract.isSound_plain hR
  have hbind (m : Mode) := Contract.meets_closure_bind hc (fun x hx => (hargs x hx).keeps)
    f.signature m
  intro s t hst l s' v t' hl hv
  obtain ⟨bs, s₁, hbs, hl₁⟩ := Run.leads_bind_ok.1 hl
  obtain ⟨bs', t₁, hbs', hv₁⟩ := Run.leads_bind_ok.1 hv
  obtain ⟨-, -, hlaws⟩ := hbs.plain (hbind .exact) hst.left
  obtain ⟨-, -, hlaws'⟩ := hbs'.plain (hbind .sample) hst.right
  have hst₁ := (hst.evalLeft hR (hbind .exact) hbs).evalRight hR (hbind .sample) hbs'
  have husable {s : Session ρ ℚ} (hs : (Contract.plain R).inv s) :
      (Contract.plain R).usable s f.scope := by
    rw [← (Session.inv_plain hs).1] at hf
    exact (hc.closure hs hf).1
  have hfresh := ((hst₁.enter hR (husable hst₁.left) (husable hst₁.right)
    (hst₁.closures shape f hf)).assignAll hR
      (covers_closure_bind hargs hR f.signature hst hbs hbs') hlaws hlaws').down hR
  rw [Session.assignAll_scope, Session.assignAll_scope] at hfresh
  obtain ⟨s₂, hbody⟩ := Run.leads_activation_ok hl₁
  obtain ⟨t₂, hbody'⟩ := Run.leads_activation_ok hv₁
  exact (henter f.body (hR shape f hf) hfresh hbody hbody').2

/-- A call. -/
theorem isCovered_call (hR : R.IsPlain) {shape : Shape}
    (hshape : R.find? shape ≠ some (.builtin .law)) (hbodies : (Contract.plain R).RunsBodies enter) :
    (call enter shape args).IsCovered R := by
  refine isCovered_ofViews (Contract.covers_call (Contract.isSound_plain hR)
    (fun x hx => (hargs x hx).keeps) hbodies shape) ?_
  intro s t hst l s' v t' hl hv
  obtain ⟨g, s₁, hg, hl₁⟩ := Run.leads_bind_ok.1 hl
  obtain ⟨g', t₁, hg', hv₁⟩ := Run.leads_bind_ok.1 hv
  obtain ⟨hfind, rfl⟩ := Run.leads_function_ok.1 hg
  obtain ⟨hfind', rfl⟩ := Run.leads_function_ok.1 hg'
  rw [(Session.inv_plain hst.left).1] at hfind
  rw [(Session.inv_plain hst.right).1] at hfind'
  obtain rfl := Option.some_inj.1 (hfind.symm.trans hfind')
  cases g with
  | builtin b =>
    exact covers_builtin hargs hR (fun hb => hshape (hb ▸ hfind)) hst hl₁ hv₁
  | user f => exact covers_activate hargs henter hR hfind hst hl₁ hv₁

end Calls

end Meaning

/-! ## Expressions -/

namespace Expr

/-- The law of every plain expression covers its samples if that of bodies does. -/
lemma isCovered_denote (hρ : Scalar.IsCongruent ρ) (hR : R.IsPlain) {enter : Enter ρ ℚ}
    (henter : Meaning.CoversBodies R enter) (hbodies : (Contract.plain R).RunsBodies enter)
    {e : Expr ρ} (he : e.Every (IsPlain R)) : (e.denote enter).IsCovered R := by
  induction he with
  | @intro e hplain hparts ih =>
    have hmap {es : List (Expr ρ)} (hes : ∀ e ∈ es, (e.denote enter).IsCovered R) :
        ∀ x ∈ es.map (denote enter), x.IsCovered R := List.forall_mem_map.2 hes
    cases e with
    | literal x => exact Meaning.isCovered_literal hR x
    | var name => exact Meaning.isCovered_var hR name
    | binary op left right =>
      exact Meaning.isCovered_binary hρ hR op (ih left (by simp [parts])) (ih right (by simp [parts]))
    | dice count sides =>
      exact Meaning.isCovered_dice hρ hR (ih count (by simp [parts])) (ih sides (by simp [parts]))
    | sequence es =>
      rw [denote, denoteAll_eq_map]
      exact Meaning.isCovered_sequence hR (hmap ih)
    | assign name e => exact Meaning.isCovered_assign hR name (ih e (by simp [parts]))
    | call shape arguments =>
      rw [denote_call]
      refine Meaning.isCovered_call (fun x hx => ?_) henter hR hplain hbodies
      rw [Slots.items_map] at hx
      exact hmap ih x hx
    | block es =>
      rw [denote, denoteAll_eq_map]
      exact Meaning.isCovered_block hR (hmap ih)
    | output e => exact Meaning.isCovered_output hR (ih e (by simp [parts]))
    | declare signature body => exact hplain.elim

/-- The law of every plain expression covers its samples. -/
theorem isCovered_meaning (hρ : Scalar.IsCongruent ρ) (hR : R.IsPlain) (fuel : Nat) {e : Expr ρ}
    (he : e.Every (IsPlain R)) : (e.meaning fuel).IsCovered R := by
  have hc := Contract.isSound_plain hR
  induction fuel generalizing e with
  | zero =>
    refine isCovered_denote hρ hR (fun _ _ s t _ l s' v t' hl _ => ?_) (fun _ _ _ s hs => ?_) he
    · cases (Run.leads_throw.1 hl).1
    · exact Contract.meetsAt_done hc hs (Run.exec_throw _ s) hc.outOfFuel
  | succ fuel ih =>
    have hbody {body : List (Expr ρ)} (hbody : ∀ e ∈ body, e.Every (IsPlain R)) :
        ∀ x ∈ body.map (meaning (μ := ℚ) fuel), x.IsCovered R :=
      List.forall_mem_map.2 fun e he => ih (hbody e he)
    refine isCovered_denote hρ hR (fun body h => ?_) (fun body m h => ?_) he
    · exact Meaning.coversStep_resultOf (hbody h)
    · exact Contract.meets_resultOf hc m fun x hx =>
        (hbody (fun e he => (h e he).mono fun _ hnode => hnode.2.2) x hx).keeps

end Expr

end DiceCalculus
