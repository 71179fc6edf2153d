import IncrementalSat.Proofs.Engine.Contradiction
import IncrementalSat.Proofs.Engine.Simplification
import IncrementalSat.Proofs.Session.Preservation

/-!
# Simplifying a session

Simplifying answers whether no contradiction is known, and brings the clauses of the engine into a
form that no further call changes.
-/
namespace IncrementalSat

namespace Session

variable {config : Config} {ops : List Operation} {answers : List Answer} {s : Session}

/-- Simplifying finds no new contradiction. If none is known, then in storage order the clauses
without a true literal stay, each without its false literals and with two literals or more. No
variable of a clause is assigned then, and simplifying once more changes nothing at all. -/
theorem simplify_normalizes (run : (fresh config).run ops = .ok (answers, s)) :
    ∃ e, s.engine.simplify = .ok (s.consistent, e) ∧ (s.consistent = true →
      s.engine.Clears e.toPropagator ∧ e = { s.engine with toPropagator := e.toPropagator } ∧
        e.simplify = .ok (true, e)) := by
  have represents := (invariant_of_run run).represents
  cases consistent : s.consistent with
  | false =>
    exact ⟨s.engine, represents.simplify_of_contradicted consistent, fun impossible =>
      absurd impossible Bool.false_ne_true⟩
  | true =>
    obtain ⟨p, simplified, clears, again⟩ := Propagator.simplify_of_done
      represents.wellFormed.propagator represents.root consistent (represents.done consistent)
    refine ⟨{ s.engine with toPropagator := p }, ?_, fun _ => ⟨clears, rfl, ?_⟩⟩
    · rw [Engine.simplify, Engine.propagating, simplified]
      rfl
    · rw [Engine.simplify, Engine.propagating, again]
      rfl

/-- Three clauses, one of which has a true literal by now and another a false one. -/
def clutteredOperations : List Operation :=
  [.newVar .unset true, .newVar .unset true, .newVar .unset true, .newVar .unset true,
    .addClause [1, 2, 4], .addClause [2, 3, 4], .addClause [1, 2, -3], .addClause [3]]

/-- Two clauses are left, and the second has lost a literal. -/
theorem simplify_normalizes_clutteredOperations : ∃ answers s e,
    (fresh {}).run clutteredOperations = .ok (answers, s) ∧ s.engine.store.clauses.length = 3 ∧
      s.engine.simplify = .ok (true, e) ∧
      e.store.clauses.map (fun c => c.lits.map Lit.toSigned) = [[1, 2, 4], [1, 2]] ∧
      s.engine.Clears e.toPropagator ∧ e.simplify = .ok (true, e) := by
  have ran : Yields ((fresh {}).run clutteredOperations) fun out =>
      out.2.engine.store.clauses.length = 3 ∧ out.2.consistent = true ∧
        Yields out.2.engine.simplify fun (_, e) =>
          e.store.clauses.map (fun c => c.lits.map Lit.toSigned) = [[1, 2, 4], [1, 2]] := by
    decide +kernel
  obtain ⟨⟨answers, s⟩, run, three, consistent, ⟨_, e⟩, simplified, left⟩ := ran
  obtain ⟨e', result, normal⟩ := simplify_normalizes run
  cases simplified.symm.trans result
  obtain ⟨clears, -, again⟩ := normal consistent
  exact ⟨answers, s, e, run, three, consistent ▸ result, left, clears, again⟩

end Session

end IncrementalSat
