import IncrementalSat.Proofs.Engine.Propagation
import IncrementalSat.Proofs.Session.Preservation

/-!
# Propagation in a session

Wherever an operation on a session propagates, the loop comes to an end, and what it leads to is the
unit closure of the trail, or a clause that the closure falsifies.
-/
namespace IncrementalSat

namespace Session

variable {config : Config} {ops : List Operation} {answers : List Answer} {s : Session}

/-- A propagation is called for where what was propagated before has no consequences left. It takes
each variable from the trail at most once. It reports no clause just if the unit closure of the trail
falsifies none, and then the literals of the trail are those of the closure, and each clause has a true
literal or two unassigned ones; the clause it reports is false. The trail is only extended, and the
clauses are only reordered. -/
theorem propagation_closes (run : (fresh config).run ops = .ok (answers, s))
    {p : Propagator s.numVars} (propagates : s.engine.Propagates p) :
    p.ClosedBefore p.head ∧ ∃ conflict p', p.propagate = .ok (conflict, p') ∧
      (∃ k ≤ s.numVars, p.Sweeps k conflict p') ∧ p.Closes conflict p' := by
  have wf := (invariant_of_run run).represents.propagates propagates
  obtain ⟨⟨conflict, p'⟩, propagated, closes⟩ := wf.closes
  exact ⟨wf.closedBefore, conflict, p', propagated,
    Propagator.sweeps_of_propagateUpTo propagated, closes⟩

/-- Two clauses that make a chain of implications. -/
def chainOperations : List Operation :=
  [.newVar .unset true, .newVar .unset true, .newVar .unset true, .addClause [1, 2],
    .addClause [-1, 3]]

/-- The negation of the second variable implies the other two. -/
theorem propagation_closes_chainOperations : ∃ answers s,
    (fresh {}).run chainOperations = .ok (answers, s) ∧ ∃ p p' : Propagator s.numVars,
      s.engine.Propagates p ∧ p.trail.size = 1 ∧ p.propagate = .ok (none, p') ∧ p'.trail.size = 3 ∧
        ∀ l, l ∈ p'.trail.lits.toList ↔ p.store.Forces p.trail.lits.toList l := by
  have ran : Yields ((fresh {}).run chainOperations) fun out =>
      ∃ v : Fin out.2.numVars, v.val = 1 ∧ out.2.engine.trail.level = 0 ∧
        out.2.engine.consistent = true ∧
        Literal.hasOppositeNeighbours (Literal.normalize ([⟨v, false⟩].map Lit.toLiteral)) = false ∧
        Yields (out.2.engine.trail.residue (Literal.normalize ([⟨v, false⟩].map Lit.toLiteral)))
          (· = some [⟨v, false⟩]) ∧
        (out.2.engine.assign ⟨v, false⟩ .root).trail.size = 1 ∧
        Yields (out.2.engine.assign ⟨v, false⟩ .root).propagate
          fun (conflict, p') => conflict = none ∧ p'.trail.size = 3 := by
    decide +kernel
  obtain ⟨⟨answers, s⟩, run, v, -, root, consistent, apart, ⟨_, residue, rfl⟩, before, ⟨_, p'⟩,
    propagated, rfl, after⟩ := ran
  have propagates : s.engine.Propagates (s.engine.assign ⟨v, false⟩ .root) :=
    .adding ⟨root, consistent, apart, _, residue, rfl⟩
  obtain ⟨-, conflict, q, result, -, closes⟩ := propagation_closes run propagates
  cases propagated.symm.trans result
  exact ⟨answers, s, run, _, p', propagates, before, propagated, after, closes.closure rfl⟩

end Session

end IncrementalSat
