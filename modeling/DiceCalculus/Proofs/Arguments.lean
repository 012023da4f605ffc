import DiceCalculus.Proofs.Consistency
import DiceCalculus.Proofs.LexicalScope
import DiceCalculus.Proofs.Slots

set_option autoImplicit false
set_option relaxedAutoImplicit false

/-!
# Arguments and parameters

A function is found by the shape of a call, and its parameters are then paired with the arguments place
by place. The pairing itself checks nothing: it would drop an argument or a parameter without a word if
the other layout had no place for it. That the shapes are equal is what makes it complete.

## Main results

* `Session.find?_enter_assignAll` — what a fresh frame binds after names were bound in it.
* `Run.play_activation` — an activation binds the parameters in a fresh frame and then runs the body.
* `Closure.play_ofCall` — a call evaluates the arguments in their order before an activation.
* `parameters_hold_their_arguments` — when a call has the shape of a function, and what the parameters
  then hold.
-/

namespace DiceCalculus

variable {ρ μ : Type} [Scalar ρ] {σ α β : Type}

/-! ## Names bound in a frame -/

namespace Session

/-- After names were bound in the innermost frame, this binds a name as it was bound last, and the
other frames bind what they did. -/
lemma find?_assignAll {s : Session ρ μ} (h : s.scope.frame < s.frames.size)
    (bs : List (String × Binding ρ μ)) (i : Nat) (name : String) :
    (s.assignAll bs).frames.find? i name =
      if i = s.scope.frame then (bs.reverse.lookup name).or (s.frames.find? i name)
      else s.frames.find? i name := by
  induction bs generalizing s with
  | nil =>
    split <;> rfl
  | cons b bs ih =>
    have hassign : (s.assign b.1 b.2).frames.find? i name =
        if i = s.scope.frame ∧ i < s.frames.size ∧ name = b.1 then some b.2
        else s.frames.find? i name := Frames.find?_assign ..
    have hframe : (s.assign b.1 b.2).scope.frame < (s.assign b.1 b.2).frames.size :=
      h.trans_eq (Frames.size_assign ..).symm
    refine (ih hframe).trans ?_
    show (if i = s.scope.frame then _ else _) = _
    rw [hassign]
    by_cases hi : i = s.scope.frame
    · subst hi
      rw [if_pos rfl, if_pos rfl, List.reverse_cons, List.lookup_append, Option.or_assoc,
        lookup_cons_eq_ite]
      by_cases hname : name = b.1 <;> simp [hname, h]
    · rw [if_neg hi, if_neg hi, if_neg fun hall => hi hall.1]

/-- A fresh frame in which names were bound binds these only, and the other frames bind what they did. -/
theorem find?_enter_assignAll (s : Session ρ μ) (scope : Scope) (bs : List (String × Binding ρ μ))
    (i : Nat) (name : String) : ((s.enter scope).assignAll bs).frames.find? i name =
      if i = s.frames.size then bs.reverse.lookup name else s.frames.find? i name := by
  have hframe : (s.enter scope).scope.frame < (s.enter scope).frames.size :=
    Nat.lt_of_lt_of_eq (Nat.lt_succ_self s.frames.size) (Frames.size_extend _ scope).symm
  have hbefore : (s.enter scope).frames.find? i name = s.frames.find? i name :=
    Frames.find?_extend _ scope i name
  rw [find?_assignAll hframe, hbefore]
  show (if i = s.frames.size then _ else _) = _
  split
  · next hi =>
    rw [hi, Frames.find?_of_size_le (Nat.le_refl _), Option.or_none]
  · rfl

end Session

namespace Run

variable [Roller σ]

/-- The results of a computation for every item of a list are as many as the items. -/
lemma length_of_play_mapM {f : α → Run ρ μ β} {as : List α} {bs : List β} {s t : Session ρ μ}
    {r r' : σ} (h : (as.mapM f).play s r = (.ok bs, t, r')) : bs.length = as.length := by
  induction as generalizing bs s r with
  | nil =>
    cases h
    rfl
  | cons a as ih =>
    rw [List.mapM_cons] at h
    obtain ⟨b, u, r₁, -, h⟩ := (play_bind_eq_ok_iff ..).1 h
    obtain ⟨bs', u', r₂, hbs, h⟩ := (play_bind_eq_ok_iff ..).1 h
    cases h
    exact congrArg (· + 1) (ih hbs)

/-- An activation makes a fresh frame inside the scope of the declaration, binds the parameters there,
and then runs the body. -/
theorem play_activation (scope : Scope) (bs : List (String × Binding ρ μ)) (act : Run ρ μ α)
    (s : Session ρ μ) (r : σ) :
    (activation scope bs act).play s r = (activate ⟨s.frames.size, scope.chain⟩ act).play
      { s with frames := ((s.enter scope).assignAll bs).frames } r := by
  have hbound : (within (s.enter scope).scope (bs.forM fun b => assign b.1 b.2)).exec
      ((s.enter scope).inScope s.scope) = .done (.ok (),
        { s with frames := ((s.enter scope).assignAll bs).frames }) := by
    have hinside : ((s.enter scope).inScope s.scope).inScope (s.enter scope).scope = s.enter scope := rfl
    have heq := Session.assignAll_eq (s.enter scope) bs
    rw [exec_within, exec_forM_assign, hinside, Sampler.done_bind]
    generalize ((s.enter scope).assignAll bs).frames = frames at heq ⊢
    rw [heq]
    rfl
  have hexec : (activation scope bs act).exec s = (activate ⟨s.frames.size, scope.chain⟩ act).exec
      { s with frames := ((s.enter scope).assignAll bs).frames } :=
    (exec_bind_done (exec_extend scope s)).trans (exec_bind_done hbound)
  rw [play_eq, play_eq, hexec]

end Run

/-! ## Calls of a function -/

/-- A call of a function of its shape evaluates the arguments in their order, and then makes an activation
in which the parameters are bound to them in the same order. -/
theorem Closure.play_ofCall [Roller σ] [Mass μ] {c : Closure ρ} {args : Slots (Expr ρ)}
    (hparams : IsAscending c.signature.parameters.keywords) (hargs : IsAscending args.keywords)
    (h : c.signature.shape = args.shape c.signature.name) {s : Session ρ μ}
    (hfunction : s.registry.find? c.signature.shape = some (.user c)) (m : Mode) (r : σ) :
    ((Expr.ofCall c.signature.name args).ask (·.answer m)).play s r =
      (do
        let bs ← args.items.mapM fun e => (e.meaning s.fuel).stored m
        Run.activation c.scope (c.signature.parameters.items.zip bs)
          (Plan.enterBody s.fuel c.body m) : Run ρ μ (m.Answer ρ μ)).play s r := by
  have hinvoke := (c.play_call args m s r (h ▸ hfunction)).trans (c.invoke_eq args m s r)
  refine hinvoke.trans ?_
  rw [← Slots.map_fst_zip hparams hargs h, ← Slots.map_snd_zip hparams hargs h]

/-- When a call has the shape of a function, and what the parameters then hold. The function and the
call have the same name; their parameters and arguments are listed by position and in groups, which
were added in any order and of which the last one under a keyword counts.

* The call has the shape of the function exactly if it has as many arguments by position as there are
  parameters, and groups of the same sizes under the same keywords. Groups with different keywords may
  be added in any order.
* If so, each parameter and each argument is in one pair, in their order: first by position, and then
  keyword by keyword with the group of the same keyword.
* If the function is registered, with parameters of which none is repeated, a call evaluates the
  arguments in this order and fails if one fails. Otherwise it runs the body in a fresh frame, which
  binds the names of the parameters and no others, each to its own argument; the other frames bind what
  they did.

**Proof sketch.** The groups of both sides are listed in ascending order of their keywords, which
does not depend on the order in which they are added. Equal shapes then mean equal lengths, group by
group (`Slots.shape_eq_iff`), and a zip of parts of equal lengths loses nothing. The call evaluates
the arguments in the order of this zip, and the frame of the activation is filled from it; as no
name is repeated, each name is found at its own place. -/
theorem parameters_hold_their_arguments [Roller σ] [Mass μ] (name : String) (ps : List String)
    (pgs : List (String × List String)) (es : List (Expr ρ)) (egs : List (String × List (Expr ρ))) :
    let params : Slots String := .ofGroups ps pgs
    let args : Slots (Expr ρ) := .ofGroups es egs
    let f : Signature := ⟨name, params⟩
    (∀ k, params.group? k = pgs.reverse.lookup k ∧ args.group? k = egs.reverse.lookup k) ∧
    (∀ pgs', (pgs.map (·.1)).Nodup → pgs.Perm pgs' → .ofGroups ps pgs' = params) ∧
    (∀ egs', (egs.map (·.1)).Nodup → egs.Perm egs' → .ofGroups es egs' = args) ∧
    (Expr.ofCall name args = .call f.shape args ↔ ps.length = es.length ∧
      ∀ k, (params.group? k).map List.length = (args.group? k).map List.length) ∧
    (f.shape = args.shape name →
      (params.zip args).map (·.1) = params.items ∧ (params.zip args).map (·.2) = args.items ∧
      IsAscending params.keywords ∧ params.zip args = ps.zip es ++
        params.keywords.flatMap (fun g => g.2.zip ((args.group? g.1).getD [])) ∧
      ∀ (body : List (Expr ρ)) (scope : Scope) (m : Mode) (s : Session ρ μ) (r : σ),
        f.repeatedParameter? = none → s.registry.find? f.shape = some (.user ⟨f, body, scope⟩) →
        let call := ((Expr.ofCall name args).ask (·.answer m)).play s r
        let evaluated := Run.play (args.items.mapM fun e : Expr ρ => (e.meaning s.fuel).stored m) s r
        (∀ e t r', evaluated = (.error e, t, r') → call = (.error e, t, r')) ∧
        ∀ vs t r', evaluated = (.ok vs, t, r') → vs.length = params.items.length ∧ ∃ frames,
          call = (Run.activate ⟨t.frames.size, scope.chain⟩ (Plan.enterBody s.fuel body m)).play
            { t with frames := frames } r' ∧
          (∀ n b, frames.find? t.frames.size n = some b ↔
            ∃ i : Nat, params.items[i]? = some n ∧ vs[i]? = some b) ∧
          ∀ i n, i ≠ t.frames.size → frames.find? i n = t.frames.find? i n) := by
  intro params args f
  have hparams : IsAscending params.keywords := Slots.isAscending_ofGroups ps pgs
  have hargs : IsAscending args.keywords := Slots.isAscending_ofGroups es egs
  have hpositional : params.positional = ps ∧ args.positional = es :=
    ⟨Slots.positional_ofGroups .., Slots.positional_ofGroups ..⟩
  refine ⟨fun k => ⟨Slots.group?_ofGroups .., Slots.group?_ofGroups ..⟩,
    fun pgs' hnodup hperm => (Slots.ofGroups_perm ps hnodup hperm).symm,
    fun egs' hnodup hperm => (Slots.ofGroups_perm es hnodup hperm).symm, ?_, fun h => ?_⟩
  · have hshape := Slots.shape_eq_iff hparams hargs name
    rw [hpositional.1, hpositional.2] at hshape
    rw [← hshape, Expr.ofCall, Expr.call.injEq, and_iff_left rfl]
    exact eq_comm
  · have hfst : (params.zip args).map (·.1) = params.items := Slots.map_fst_zip hparams hargs h
    have hsnd : (params.zip args).map (·.2) = args.items := Slots.map_snd_zip hparams hargs h
    refine ⟨hfst, hsnd, hparams, ?_, fun body scope m s r hrepeated hfunction => ?_⟩
    · unfold Slots.zip
      rw [hpositional.1, hpositional.2]
      refine congrArg _ (List.flatMap_congr fun g _ => ?_)
      cases args.group? g.1 with
      | none => exact List.zip_nil_right.symm
      | some ys => rfl
    · have hcall := Closure.play_ofCall (c := ⟨f, body, scope⟩) hparams hargs h hfunction m r
      refine ⟨fun e t r' he => hcall.trans (Run.play_bind_error he _), fun vs t r' hvs => ?_⟩
      have hlength : vs.length = params.items.length := by
        rw [Run.length_of_play_mapM hvs, ← hsnd, ← hfst, List.length_map, List.length_map]
      refine ⟨hlength, _, (hcall.trans (Run.play_bind_ok hvs _)).trans (Run.play_activation ..),
        fun n b => ?_, fun i n hi => ?_⟩
      · have hnodup : params.items.Nodup := Signature.repeatedParameter?_eq_none_iff.1 hrepeated
        rw [Session.find?_enter_assignAll, if_pos rfl]
        exact lookup_zip_eq_some_iff hnodup hlength n b
      · rw [Session.find?_enter_assignAll, if_neg hi]

/-- A function with a parameter by position and groups under two keywords, which are added in another
order in its declaration than in the call. Each name is bound to its own argument.

**Proof sketch.** The shapes are equal by computation, although the groups are added in another
order. The theorem gives the frame from the values of the four arguments, in the order of the
parameters. -/
theorem parameters_hold_their_arguments_in_any_order :
    let num (i : Int32) : Expr (WithBot ℚ) := .literal (.int i)
    let value (i : Int32) : Binding (WithBot ℚ) ℚ := .value (.number (.int i))
    let pgs := [("x", ["b", "c"]), ("y", ["d"])]
    let egs := [("y", [num 4]), ("x", [num 2, num 3])]
    let f : Signature := ⟨"f", .ofGroups ["a"] pgs⟩
    let body : List (Expr (WithBot ℚ)) := [.output (.var "c")]
    let start : Session (WithBot ℚ) ℚ := .start ⟨none, some 1, none, 0⟩
    let s := { start with registry := start.registry.insert f.shape (.user ⟨f, body, .global⟩) }
    let r : Stepper := ⟨1, 1⟩
    let call := Expr.ofCall "f" (.ofGroups [num 1] egs)
    ∃ frames : Frames (WithBot ℚ) ℚ, (call.ask (·.answer .sample)).play s r =
      (Run.activate ⟨1, [0]⟩ (Plan.enterBody s.fuel body .sample)).play { s with frames := frames } r ∧
      frames.find? 1 "a" = some (value 1) ∧ frames.find? 1 "b" = some (value 2) ∧
      frames.find? 1 "c" = some (value 3) ∧ frames.find? 1 "d" = some (value 4) ∧
      frames.find? 1 "x" = none := by
  intro num value pgs egs f body start s r call
  obtain ⟨-, -, -, -, hcall⟩ :=
    @parameters_hold_their_arguments (WithBot ℚ) ℚ _ Stepper _ _ "f" ["a"] pgs [num 1] egs
  obtain ⟨-, -, -, -, hbody⟩ := hcall (by decide +kernel)
  have hfunction : s.registry.find? f.shape = some (.user ⟨f, body, .global⟩) :=
    (Dictionary.find?_insert ..).trans (if_pos rfl)
  obtain ⟨-, hok⟩ := hbody body .global .sample s r (by decide +kernel) hfunction
  have hgroups : Slots.ofGroups [num 1] egs = ⟨[num 1], [("x", [num 2, num 3]), ("y", [num 4])]⟩ := by
    have hkeywords : compare "x" "y" = .lt := by decide
    simp only [egs, Slots.ofGroups, List.foldl, Slots.withKeyword, Slots.ofList, Slots.insertGroup,
      hkeywords]
  have hparams : f.parameters.items = ["a", "b", "c", "d"] := by decide +kernel
  obtain ⟨-, frames, hplay, hframe, -⟩ := hok [value 1, value 2, value 3, value 4] s r (by rw [hgroups]; rfl)
  rw [hparams] at hframe
  refine ⟨frames, hplay, (hframe _ _).2 ⟨0, rfl, rfl⟩, (hframe _ _).2 ⟨1, rfl, rfl⟩,
    (hframe _ _).2 ⟨2, rfl, rfl⟩, (hframe _ _).2 ⟨3, rfl, rfl⟩, ?_⟩
  refine Option.eq_none_iff_forall_ne_some.2 fun b hb => ?_
  obtain ⟨i, hi, -⟩ := (hframe _ _).1 hb
  exact absurd (List.mem_of_getElem? hi) (by decide)

end DiceCalculus
