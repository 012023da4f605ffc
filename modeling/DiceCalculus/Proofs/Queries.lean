import DiceCalculus.Proofs.Exact
import DiceCalculus.Proofs.Queries.Interchange
import DiceCalculus.Proofs.Queries.Quiet
import DiceCalculus.Roller

set_option autoImplicit false
set_option relaxedAutoImplicit false

/-!
# Laws as queries

To compute a law is to ask a question: no dice are asked for. If no function is declared on the way,
nothing is left behind either that could be noticed later, neither by other questions nor by what is
sampled before, between and after them.

## Main definitions

* `Query` — a law that is asked for, and `Query.IsPure` — without a declaration on the way.
* `Turn` — a call whose reply matters, or a query.
* `Session.converse` — the replies to the calls among the turns, and what is left in the end.

## Main results

* `Query.unchanged_after` — a pure query leaves further frames behind, and nothing else.
* `Session.converse_agree` — pure queries among calls do not change the replies.
* `laws_are_pure_queries` — what is said of exact mode, all in one.
-/

namespace DiceCalculus

variable {ρ μ : Type} [Scalar ρ] {σ : Type}

/-! ## Queries -/

/-- A law that is asked for. -/
inductive Query (ρ : Type) where
  /-- The law of an expression, wherever an evaluation has got. -/
  | law (e : Expr ρ)
  /-- The laws of its components. -/
  | laws (e : Expr ρ)
  /-- The law of an expression, of a session in which no evaluation is under way. -/
  | distribution (e : Expr ρ)

namespace Query

/-- The expression whose law is asked for. -/
def expr : Query ρ → Expr ρ
  | law e | laws e | distribution e => e

/-- The question to the expression. -/
@[reducible] def question : Query ρ → Question
  | law _ | distribution _ => .law
  | laws _ => .laws

omit [Scalar ρ] in
/-- The question is answered in exact mode. -/
lemma mode_question (q : Query ρ) : q.question.mode = .exact := by
  cases q <;> rfl

/-- The session in which the expression is asked. -/
def ready : Query ρ → Session ρ μ → Session ρ μ
  | law _, s | laws _, s => s
  | distribution _, s => s.renewed

/-- What is done with the session. -/
@[reducible] def interaction (μ : Type) : Query ρ → Interaction ρ μ
  | law e => .ask .law e
  | laws e => .ask .laws e
  | distribution e => .operation (.request (.distribution e))

/-- The query leaves the dice and the calls of an evaluation that is under way as they are. -/
def IsDirect : Query ρ → Prop
  | distribution _ => False
  | _ => True

end Query

/-- An expression that is no declaration itself. -/
def Expr.IsNoDeclaration (e : Expr ρ) : Prop := ∀ f body, e ≠ .declare f body

/-- No function is declared in an expression. -/
def Expr.DeclaresNothing (e : Expr ρ) : Prop := e.Every Expr.IsNoDeclaration

/-- No function is declared in the body of a registered one. -/
def Session.DeclaresNothing (s : Session ρ μ) : Prop :=
  ∀ shape c, s.registry.find? shape = some (.user c) → ∀ e ∈ c.body, e.DeclaresNothing

/-- No function is declared on the way of a query. -/
structure Query.IsPure (q : Query ρ) (s : Session ρ μ) : Prop where
  /-- None is declared in the expression. -/
  expr : q.expr.DeclaresNothing
  /-- None is declared in a function that may be called. -/
  functions : s.DeclaresNothing

namespace Query

variable [Mass μ]

/-- A query is the question to its expression, with a result that depends on the answer and on what is
left of the session. -/
lemma exec_perform (q : Query ρ) (s : Session ρ μ) :
    ∃ f : Session ρ μ → Except (Stop ρ μ) (q.question.Answer ρ μ) →
        Except (Stop ρ μ) (q.interaction μ).Answer,
      (q.interaction μ).perform.exec s = (q.expr.ask q.question.of).exec (q.ready s) >>= fun p =>
        .done (f p.2 p.1, p.2) := by
  cases q with
  | law e | laws e => exact ⟨fun _ => id, (Sampler.bind_done _).symm⟩
  | distribution e =>
    exact ⟨fun t x => x.bind (Session.checked t.limits.tolerance), Session.exec_distribution e s⟩

/-- A query is finished at once: no dice are asked for. -/
lemma exec_eq_done (q : Query ρ) (s : Session ρ μ) :
    ∃ x t, (q.interaction μ).perform.exec s = .done (x, t) := by
  obtain ⟨f, hf⟩ := q.exec_perform s
  obtain ⟨x, t, hexec, -⟩ := (Question.isQuiet_of q.mode_question (q.ready s).fuel q.expr).exec_eq (q.ready s)
  rw [Run.exec_ask, hexec] at hf
  exact ⟨f t x, t, hf⟩

/-- The contract of an evaluation without declarations covers the question of a pure query. -/
lemma meets_steady (q : Query ρ) {s : Session ρ μ} (hq : q.IsPure s) (fuel : Nat) :
    ∃ Q, (Contract.steady μ s.registry Expr.IsNoDeclaration).Meets .expression
      (q.question.of (q.expr.meaning fuel)) Q := by
  have hsound : (Contract.steady μ s.registry Expr.IsNoDeclaration).IsSound :=
    Contract.isSound_steady hq.functions fun f body h => h f body rfl
  have hcovers := Contract.covers_meaning hsound fuel hq.expr
  cases q with
  | law | distribution => exact ⟨_, hcovers.law⟩
  | laws => exact ⟨_, hcovers.laws⟩

variable [Roller σ]

/-- The question of a pure query leaves the roller as it is, and further frames of the session at most.

**Proof sketch.** In exact mode no dice are asked for and none are spent. A run ends where it began, and
without declarations it keeps the registry and the variables. -/
lemma unchanged_play (q : Query ρ) (fuel : Nat) {s : Session ρ μ} (hq : q.IsPure s) (r : σ) :
    let p := (q.question.of (q.expr.meaning fuel)).play s r
    p.2.2 = r ∧ s.Unchanged p.2.1 := by
  obtain ⟨x, t, hexec, hspent, -⟩ := (Question.isQuiet_of q.mode_question fuel q.expr).exec_eq s
  have hplay := Run.play_of_done r hexec
  have hreturns : s.Returns t := by
    have hevolves := q.question.evolves_play fuel q.expr s r
    rw [hplay] at hevolves
    exact hevolves.returns
  obtain ⟨Q, hmeets⟩ := q.meets_steady hq fuel
  obtain ⟨hregistry, ⟨-, hgrows, hbindings⟩, -⟩ :=
    hmeets s rfl x t ((Run.leads_iff_of_done hexec).2 ⟨rfl, rfl⟩)
  rw [hplay]
  refine ⟨rfl, ?_, hgrows, fun i hi => hbindings i hi nofun⟩
  obtain ⟨limits, registry, frames, scope, spent, depth⟩ := t
  rw [Session.mk.injEq]
  exact ⟨hreturns.limits, hregistry, rfl, hreturns.scope, hspent, hreturns.depth⟩

/-- A pure query leaves the roller as it is, and further frames of the session at most. -/
theorem unchanged_after (q : Query ρ) {s : Session ρ μ} (hq : q.IsPure s) (r : σ) :
    ((q.interaction μ).after s r).2 = r ∧ (q.ready s).Unchanged ((q.interaction μ).after s r).1 := by
  have hready : q.IsPure (q.ready s) := ⟨hq.expr, by cases q <;> exact hq.functions⟩
  obtain ⟨f, hf⟩ := q.exec_perform s
  have hafter : (q.interaction μ).after s r = ((q.expr.ask q.question.of).play (q.ready s) r).2 := by
    rw [Interaction.after, Run.play_eq, hf, Sampler.play_bind]
    rfl
  rw [hafter, Question.play_ask]
  exact q.unchanged_play _ hready r

end Query

/-! ## Sessions that queries leave -/

/-- Sessions that cannot be told apart once they are renewed, nor before if that matters. -/
structure Session.Matches (direct : Prop) (s s' : Session ρ μ) : Prop where
  /-- With no dice spent and no calls under way, they cannot be told apart. -/
  renewed : s.renewed.Interchangeable s'.renewed
  /-- Nor can they with those that are, if these matter. -/
  direct : direct → s.Interchangeable s'

/-- An interaction that is one of the session as a whole. -/
def Interaction.IsOperation : Interaction ρ μ → Prop
  | operation _ => True
  | ask _ _ => False

namespace Session

variable {direct : Prop} {s s' t : Session ρ μ}

/-- A session matches itself if the frames of its scopes exist. -/
lemma IsWellScoped.matches (hs : s.IsWellScoped) : s.Matches direct s :=
  ⟨hs.interchangeable.renewed, fun _ => hs.interchangeable⟩

variable [Roller σ] [Mass μ]

/-- Interactions with sessions that match go alike, and leave sessions that match. -/
lemma Matches.agree_perform (h : s.Matches direct s') {i : Interaction ρ μ}
    (hi : direct ∨ i.IsOperation) (r : σ) :
    Run.Agree (Matches direct) (i.perform.play s r) (i.perform.play s' r) := by
  by_cases hdirect : direct
  · exact (i.agree_perform (h.direct hdirect) r).mono fun _ _ ht => ⟨ht.renewed, fun _ => ht⟩
  · cases i with
    | operation o => exact (o.agree_perform h.renewed r).mono fun _ _ ht => ⟨ht, fun h => absurd h hdirect⟩
    | ask q e => exact absurd (hi.resolve_left hdirect) id

/-- A pure query to the second of two sessions that match leaves it so. -/
lemma Matches.query (h : s.Matches direct s') {q : Query ρ} (hq : q.IsPure s')
    (hdirect : direct → q.IsDirect) (r : σ) : s.Matches direct ((q.interaction μ).after s' r).1 := by
  obtain ⟨-, hunchanged⟩ := q.unchanged_after hq r
  cases q with
  | law | laws =>
    exact ⟨h.renewed.unchanged hunchanged.renewed, fun hd => (h.direct hd).unchanged hunchanged⟩
  | distribution => exact ⟨h.renewed.unchanged hunchanged.renewed, fun hd => absurd (hdirect hd) id⟩

end Session

namespace Query

variable [Roller σ] [Mass μ] {q : Query ρ} {s : Session ρ μ}

/-- The question of a pure query has the same answer again, whatever the roller. -/
lemma IsPure.play_again (hq : q.IsPure s) (fuel : Nat) (hs : s.IsWellScoped) (r r' : σ) :
    let answer := q.question.of (q.expr.meaning fuel)
    (answer.play (answer.play s r).2.1 r').1 = (answer.play s r).1 := by
  intro answer
  have hunchanged := (q.unchanged_play fuel hq r).2
  have hagree := q.question.agree_play fuel q.expr (hs.interchangeable.unchanged hunchanged) r'
  obtain ⟨x, t, hexec, -⟩ := (Question.isQuiet_of q.mode_question fuel q.expr).exec_eq s
  rw [hagree.result, Run.play_of_done _ hexec, Run.play_of_done _ hexec]

/-- A pure query has the same result again, whatever the roller. -/
lemma IsPure.perform_again (hq : q.IsPure s) (hs : s.IsWellScoped) (r r' : σ) :
    let act := (q.interaction μ).perform
    (act.play (act.play s r).2.1 r').1 = (act.play s r).1 := by
  intro act
  have hmatches : s.Matches q.IsDirect (act.play s r).2.1 := hs.matches.query hq id r
  have hkind : q.IsDirect ∨ (q.interaction μ).IsOperation := by
    cases q with
    | law | laws => exact .inl trivial
    | distribution => exact .inr trivial
  obtain ⟨x, t, hexec⟩ := q.exec_eq_done s
  rw [(hmatches.agree_perform hkind r').result, Run.play_of_done _ hexec, Run.play_of_done _ hexec]

end Query

/-! ## Queries among calls -/

/-- A call whose reply matters, or a query. -/
inductive Turn (ρ μ : Type) [Scalar ρ] where
  /-- A call. -/
  | call (i : Interaction ρ μ)
  /-- A query. -/
  | query (q : Query ρ)

/-- The turn is a call. -/
def Turn.isCall : Turn ρ μ → Bool
  | call _ => true
  | query _ => false

/-- What a call comes to. -/
structure Reply (ρ μ : Type) [Scalar ρ] where
  /-- The call. -/
  call : Interaction ρ μ
  /-- Its answer, or why it has none. -/
  result : Except (Stop ρ μ) call.Answer
  /-- The requests to the roller, the last one first. -/
  requests : List (Nat × Nat)

section Turns

variable [Roller σ] [Mass μ]

/-- The reply to a call. -/
def Interaction.reply (i : Interaction ρ μ) (s : Session ρ μ) (r : σ) : Reply ρ μ where
  call := i
  result := (i.perform.play s (Recorded.ofState r)).1
  requests := (i.perform.play s (Recorded.ofState r)).2.2.requests

namespace Session

/-- The replies to the calls among some turns, with the session and the roller that are left. -/
def converse : List (Turn ρ μ) → Session ρ μ → σ → List (Reply ρ μ) × Session ρ μ × σ
  | [], s, r => ([], s, r)
  | .call i :: ts, s, r =>
    let p := i.after s r
    let q := converse ts p.1 p.2
    (i.reply s r :: q.1, q.2)
  | .query q :: ts, s, r =>
    let p := (q.interaction μ).after s r
    converse ts p.1 p.2

/-- All queries among some turns are pure when they are asked. -/
def AsksPurely : List (Turn ρ μ) → Session ρ μ → σ → Prop
  | [], _, _ => True
  | .call i :: ts, s, r => AsksPurely ts (i.after s r).1 (i.after s r).2
  | .query q :: ts, s, r =>
    q.IsPure s ∧ AsksPurely ts ((q.interaction μ).after s r).1 ((q.interaction μ).after s r).2

end Session

/-- A turn that sessions which match answer alike. -/
def Turn.Suits (direct : Prop) : Turn ρ μ → Prop
  | call i => direct ∨ i.IsOperation
  | query q => direct → q.IsDirect

end Turns

namespace Session

variable [Roller σ] [Mass μ]

/-- Pure queries among calls change neither the replies nor the roller that is left.

**Proof sketch.** By induction over the turns, with two sessions that match: one in which the queries
are asked and one in which they are not. A call keeps them so and is answered alike, and a query keeps
them so since it changes nothing that can be told. -/
theorem converse_agree {direct : Prop} {ts : List (Turn ρ μ)} (hts : ∀ t ∈ ts, t.Suits direct)
    {s s' : Session ρ μ} (h : s.Matches direct s') {r : σ} (hpure : s'.AsksPurely ts r) :
    Run.Agree (Matches direct) (s.converse (ts.filter Turn.isCall) r) (s'.converse ts r) := by
  induction ts generalizing s s' r with
  | nil => exact ⟨rfl, rfl, h⟩
  | cons t ts ih =>
    rw [List.forall_mem_cons] at hts
    cases t with
    | call i =>
      have hagree := h.agree_perform hts.1 r
      have hrecorded := h.agree_perform hts.1 (Recorded.ofState r)
      have hreply : i.reply s' r = i.reply s r := by
        unfold Interaction.reply
        rw [hrecorded.result, hrecorded.roller]
      have hroller : (i.after s' r).2 = (i.after s r).2 := hagree.roller
      rw [AsksPurely, hroller] at hpure
      have hnext := ih hts.2 hagree.session hpure
      rw [List.filter_cons_of_pos rfl, converse, converse, hroller, hreply]
      exact ⟨congrArg (List.cons (i.reply s r)) hnext.result, hnext.roller, hnext.session⟩
    | query q =>
      obtain ⟨hq, hpure⟩ := hpure
      have hroller := (q.unchanged_after hq r).1
      have hnext := ih hts.2 (h.query hq hts.1 r) (hroller ▸ hpure)
      rw [List.filter_cons_of_neg Bool.false_ne_true, converse, hroller]
      exact hnext

end Session

/-! ## Exact mode -/

/-- The law that a session gives does not depend on the dice, and none are asked for. -/
lemma Session.exec_distribution_withDice [Mass μ] (e : Expr ρ) (s : Session ρ μ) :
    ∃ x t, ∀ spent limit, (Session.distribution e).exec (s.withDice spent limit) =
      .done (x, Session.withDice t 0 limit) := by
  obtain ⟨x, t, ht⟩ := Question.isQuiet_of (q := .law) rfl s.renewed.fuel e s.renewed
  refine ⟨x.bind (Session.checked t.limits.tolerance), t, fun spent limit => ?_⟩
  have hlaw : e.law.exec (s.withDice spent limit).renewed = .done (x, t.withDice 0 limit) :=
    (Run.exec_ask e (·.law) _).trans (ht 0 limit)
  rw [Session.exec_distribution, hlaw]
  rfl

/-- To compute a law is to ask a question.

In exact mode no dice are asked for, whatever is called: every answer of every expression, with any
amount of fuel, is found without them, and so is the law that is taken of an argument on the way of a
sample, and the law that a session gives. No dice are spent, and what comes out and what is left does
not depend on the dice that were spent before or that may be spent.

If no function is declared in the expression or in the body of a registered one, the roller and the
session are as before, but for further frames: the registry is the same, and so is all that was bound.
As long as the frames of all scopes exist, the same question then has the same answer again, and such
queries may be put between calls in any way: the replies to the calls are the same, with the same
requests to the roller, and what is left cannot be told apart. A query to the session starts an
evaluation anew, so that the dice that were spent are forgotten; it is put between operations, which do
so themselves.

**Proof sketch.** Exact mode contains no request for dice, so that its runs are quiet and do not
depend on the dice that were spent. Without declarations the registry stays, and frames are only
added (`unchanged_play`). Hence a session before a query and the one behind it match, and matching
sessions give the same replies to the same calls (`Session.converse_agree`), by induction over the
turns. -/
theorem laws_are_pure_queries [Roller σ] [Mass μ] :
    (∀ (q : Question) (fuel : Nat) (e : Expr ρ), q.mode = .exact →
      (q.of (e.meaning fuel) : Run ρ μ _).IsQuiet) ∧
    (∀ (fuel : Nat) (args : Slots (Expr ρ)),
      (Builtin.law.value (args.map (·.meaning fuel)) : Run ρ μ _).IsQuiet) ∧
    (∀ (e : Expr ρ) (s : Session ρ μ), ∃ x t, ∀ spent limit,
      (Session.distribution e).exec (s.withDice spent limit) =
        .done (x, Session.withDice t 0 limit)) ∧
    (∀ (q : Query ρ) (s : Session ρ μ) (r : σ), q.IsPure s →
      (∀ fuel,
        let answer := q.question.of (q.expr.meaning fuel)
        let p := answer.play s r
        p.2.2 = r ∧ s.Unchanged p.2.1 ∧
          (s.IsWellScoped → ∀ r' : σ, (answer.play p.2.1 r').1 = p.1)) ∧
      let p := (q.interaction μ).perform.play s r
      p.2.2 = r ∧ (q.ready s).Unchanged p.2.1 ∧
        (s.IsWellScoped → ∀ r' : σ, ((q.interaction μ).perform.play p.2.1 r').1 = p.1)) ∧
    ∀ (ts : List (Turn ρ μ)) (s : Session ρ μ) (r : σ), s.IsWellScoped → s.AsksPurely ts r →
      let p := s.converse (ts.filter Turn.isCall) r
      let p' := s.converse ts r
      ((∀ q, .query q ∈ ts → q.IsDirect) →
        p'.1 = p.1 ∧ p'.2.2 = p.2.2 ∧ p.2.1.Interchangeable p'.2.1) ∧
      ((∀ i, .call i ∈ ts → i.IsOperation) →
        p'.1 = p.1 ∧ p'.2.2 = p.2.2 ∧ p.2.1.renewed.Interchangeable p'.2.1.renewed) := by
  refine ⟨fun q fuel e hq => Question.isQuiet_of hq fuel e, Builtin.isQuiet_law,
    Session.exec_distribution_withDice, fun q s r hq => ?_,
    fun ts s r hs hpure => ⟨fun hqueries => ?_, fun hcalls => ?_⟩⟩
  · obtain ⟨hroller, hunchanged⟩ := q.unchanged_after hq r
    refine ⟨fun fuel => ?_, hroller, hunchanged, fun hs r' => hq.perform_again hs r r'⟩
    obtain ⟨hroller, hunchanged⟩ := q.unchanged_play fuel hq r
    exact ⟨hroller, hunchanged, fun hs r' => hq.play_again fuel hs r r'⟩
  · have hsuits : ∀ t ∈ ts, t.Suits True := by
      rintro (i | q) ht
      · exact .inl trivial
      · exact fun _ => hqueries q ht
    obtain ⟨hreplies, hroller, hmatches⟩ := Session.converse_agree hsuits hs.matches hpure
    exact ⟨hreplies, hroller, hmatches.direct trivial⟩
  · have hsuits : ∀ t ∈ ts, t.Suits False := by
      rintro (i | q) ht
      · exact .inr (hcalls i ht)
      · exact False.elim
    obtain ⟨hreplies, hroller, hmatches⟩ := Session.converse_agree hsuits hs.matches hpure
    exact ⟨hreplies, hroller, hmatches.renewed⟩

/-- A die is rolled twice, once before and once after the law of one more than its face is asked for,
which a declared function computes. Both faces are those that are rolled without the query, though no
more than one die may be rolled at a time. If the expression is asked itself, and so is the die, the
second roll is refused, as it is without the query.

**Proof sketch.** The query calls a function whose body declares nothing, in a session whose scopes
are all made. Both orders of turns are settled by the theorem; which requests are made without the
query is computed. -/
theorem laws_are_pure_queries_between_rolls :
    let f : Signature := ⟨"f", .ofList ["n"]⟩
    let body : List (Expr (WithBot ℚ)) := [.binary .add (.var "n") (.literal (.int 1))]
    let die : Expr (WithBot ℚ) := .dice (.literal (.int 1)) (.literal (.int 6))
    let q : Query (WithBot ℚ) := .distribution (.ofCall "f" (.ofList [die]))
    let roll : Turn (WithBot ℚ) ℚ := .call (.operation (.request (.evaluate die)))
    let q' : Query (WithBot ℚ) := .law q.expr
    let roll' : Turn (WithBot ℚ) ℚ := .call (.ask .value die)
    let s : Session (WithBot ℚ) ℚ := { Session.start ⟨some 1, some 1, none, 0⟩ with
      registry := Registry.standard.insert f.shape (.user ⟨f, body, .global⟩) }
    let r : Stepper := ⟨1, 1⟩
    let p := s.converse [roll, roll] r
    let p' := s.converse [roll, .query q, roll] r
    q.IsPure s ∧ s.IsWellScoped ∧ s.AsksPurely [roll, .query q, roll] r ∧
      p'.1 = p.1 ∧ p'.2.2 = p.2.2 ∧ p.2.1.renewed.Interchangeable p'.2.1.renewed ∧
      p.1.map (·.requests) = [[(1, 6)], [(1, 6)]] ∧
      (s.converse [roll', .query q', roll'] r).1 = (s.converse [roll', roll'] r).1 ∧
      (s.converse [roll', roll'] r).1.map (·.requests) = [[(1, 6)], []] ∧
      ((Session.distribution q.expr).play s r).1.toOption.map (·.size) = some 6 := by
  intro f body die q roll q' roll' s r p p'
  have hpure {t : Session (WithBot ℚ) ℚ} (ht : t.registry = s.registry) : q.IsPure t := by
    constructor
    · simp [q, die, Query.expr, Expr.DeclaresNothing, Expr.IsNoDeclaration, Expr.ofCall]
    · intro shape c hc
      rw [ht] at hc
      rw [Registry.eq_of_find?_insert_standard hc]
      simp [body, Expr.DeclaresNothing, Expr.IsNoDeclaration]
  have hs : s.IsWellScoped := by
    have hglobal := (Session.isWellScoped_start (ρ := WithBot ℚ) s.limits).scope
    refine ⟨hglobal, fun shape c hc => ?_⟩
    rw [Registry.eq_of_find?_insert_standard hc]
    exact hglobal
  have hasks : s.AsksPurely [roll, .query q, roll] r := ⟨hpure rfl, trivial⟩
  have hasks' : s.AsksPurely [roll', .query q', roll'] r :=
    ⟨⟨(hpure rfl).expr, (hpure rfl).functions⟩, trivial⟩
  have hcalls : ∀ i, .call i ∈ [roll, .query q, roll] → i.IsOperation := by
    simp [roll, Interaction.IsOperation]
  have hqueries : ∀ q, .query q ∈ [roll', .query q', roll'] → q.IsDirect := by
    simp [roll', q', Query.IsDirect]
  obtain ⟨hreplies, hroller, hsession⟩ :=
    (laws_are_pure_queries.2.2.2.2 [roll, .query q, roll] s r hs hasks).2 hcalls
  obtain ⟨hreplies', -, -⟩ :=
    (laws_are_pure_queries.2.2.2.2 [roll', .query q', roll'] s r hs hasks').1 hqueries
  have hrequests : p.1.map (·.requests) = [[(1, 6)], [(1, 6)]] := by decide +kernel
  have hrequests' : (s.converse [roll', roll'] r).1.map (·.requests) = [[(1, 6)], []] := by
    decide +kernel
  have hlaw : ((Session.distribution q.expr).play s r).1.toOption.map (·.size) = some 6 := by
    decide +kernel
  exact ⟨hpure rfl, hs, hasks, hreplies, hroller, hsession, hrequests, hreplies', hrequests', hlaw⟩

end DiceCalculus
