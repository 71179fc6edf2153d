import IncrementalSat.Proofs.Engine.Passage
import IncrementalSat.Proofs.Propagator.Reasons
import IncrementalSat.Proofs.Session.Preservation

/-!
# Reasons in a session

Whatever search a session is in, the trail is in order and each literal above level zero is a decision
or has a clause as its reason. Dropping learnt clauses removes no reason, and no visit to a clause
changes the first literal of one.
-/
namespace IncrementalSat

namespace Session

variable {config : Config} {ops : List Operation} {answers : List Answer} {s : Session}

/-- Wherever an operation on a session passes through, and whenever a clause is visited during a
propagation from there, the trail is in order and the reasons are in the store, each with the literal
it implied in front and its other literals false before. Dropping learnt clauses and visiting a clause
keep this up: a reason stays in the store, and its first literal stays the same. -/
theorem reasons_stay_valid (run : (fresh config).run ops = .ok (answers, s))
    {p : Propagator s.numVars} (passes : s.engine.Passes p) :
    p.trail.Grounded p.store ∧
      (Yields p.reduceLearnts fun q => q.trail.Grounded q.store ∧
        ∀ j l c, p.trail.IsReason j l → p.store.Has j c → q.store.Has j c) ∧
      ∀ w i q, p.Visits w i q → q.trail.Grounded q.store ∧
        Yields (q.visit w i) fun (_, r) => r.trail.Grounded r.store ∧
          ∀ j l c, q.trail.IsReason j l → q.store.Has j c → r.trail.IsReason j l ∧
            ∃ d, r.store.Has j d ∧ d.first = c.first ∧ d.lits.Perm c.lits := by
  have wf := (invariant_of_run run).represents.passes passes
  refine ⟨wf.toLinked.grounded, wf.reduceLearnts_keeps, ?_⟩
  intro w i q visits
  have visiting := visits.visiting wf
  exact ⟨visiting.grounded, visiting.keeps⟩

/-- Without the first variable the first clause implies the second one, and that implies the third. -/
def cascadeOperations : List Operation :=
  [.newVar .unset true, .newVar .unset true, .newVar .unset true, .addClause [1, 2],
    .addClause [1, -2, 3]]

/-- The first clause has become the reason of the second variable when the second clause is visited,
which goes on to watch another literal and leaves the reason as it is. -/
theorem reasons_stay_valid_cascadeOperations : ∃ answers s,
    (fresh {}).run cascadeOperations = .ok (answers, s) ∧
      ∃ (p q : Propagator s.numVars) (w l : Lit s.numVars) (c : Clause s.numVars),
        s.engine.Passes p ∧ p.trail.level = 1 ∧ p.Visits w 1 q ∧ q.trail.IsReason 0 l ∧
          q.trail.Grounded q.store ∧ q.store.Has 0 c ∧ c.first = l ∧
          Yields (q.visit w 1) fun (_, r) => r.trail.Grounded r.store ∧ r.trail.IsReason 0 l ∧
            ∃ d, r.store.Has 0 d ∧ d.first = l := by
  have ran : Yields ((fresh {}).run cascadeOperations) fun out => out.2.engine.consistent = true ∧
      Yields { out.2.engine with model := #[] }.prepareSearch fun start =>
        Yields (Engine.searchStep [] false start) fun (first, e) => first = .running false ∧
          e.trail.level = 1 ∧ ∃ u v : Fin out.2.numVars,
            e.trail.lits[e.head]? = some ⟨u, false⟩ ∧ (e.watches.get ⟨u, true⟩).toList = [0, 1] ∧
              Yields ({ e.toPropagator with propagations := e.propagations + 1 }.visit ⟨u, true⟩ 0)
                fun (outcome, q) => outcome = .keep ∧ q.trail.eval ⟨v, true⟩ = some true ∧
                  0 < q.trail.depth ⟨v, true⟩ ∧ q.trail.reasonOf v = some (.clause 0) := by
    decide +kernel
  obtain ⟨⟨answers, s⟩, run, consistent, start, prepared, ⟨_, e⟩, first, rfl, level, u, v, next,
    entries, ⟨_, q⟩, visited, rfl, holds, above, reason⟩ := ran
  have begins : s.engine.Begins (([] : List (Lit s.numVars)).map Lit.toLiteral) false false start :=
    ⟨consistent, _, rfl, prepared⟩
  have passes : s.engine.Passes e.toPropagator :=
    .searching begins (.next .start first) .start
  have visits : e.toPropagator.Visits ⟨u, true⟩ 1 q := by
    refine .here next ?_
    change Propagator.Looks ⟨u, true⟩ #[] (e.watches.get ⟨u, true⟩).toList _ 1 q
    rw [entries]
    exact .keep visited .first
  have isReason : q.trail.IsReason 0 ⟨v, true⟩ := ⟨holds, above, reason⟩
  obtain ⟨-, -, during⟩ := reasons_stay_valid run passes
  obtain ⟨grounded, kept⟩ := during _ _ _ visits
  obtain ⟨c, hc, at_front⟩ := grounded.has_of_isReason isReason
  refine ⟨answers, s, run, e.toPropagator, q, ⟨u, true⟩, ⟨v, true⟩, c, passes, level, visits, isReason,
    grounded, hc, at_front, kept.mono ?_⟩
  rintro ⟨_, r⟩ ⟨grounded', same⟩
  obtain ⟨still, d, hd, unmoved, -⟩ := same 0 _ c isReason hc
  exact ⟨grounded', still, d, hd, unmoved.trans at_front⟩

end Session

end IncrementalSat
