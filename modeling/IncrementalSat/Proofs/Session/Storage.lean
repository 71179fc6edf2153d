import IncrementalSat.Proofs.Engine.Passage
import IncrementalSat.Proofs.Propagator.Reasons
import IncrementalSat.Proofs.Propagator.Storage
import IncrementalSat.Proofs.Session.Preservation

/-!
# Stored clauses in a session

Wherever an operation on a session passes through, the counters of the store are right, the clauses
are proper ones, and closing the holes loses none of them. No operation removes a clause twice.
-/
namespace IncrementalSat

namespace Session

variable {config : Config} {ops : List Operation} {answers : List Answer} {s : Session}

/-- All clauses have two literals or more over distinct variables, and the counters are right, wherever
an operation passes through and whenever a clause is visited during a propagation from there. Clauses
can be removed there if they are live, each once, and then no others are gone; to remove a hole would
be an error. At level zero closing the holes leaves the same clauses in the same order, half of the
slots or less as holes, and two entries in the watch lists for each clause. No operation on a session
removes a hole, makes a clause too short or counts below zero. -/
theorem store_is_accurate (run : (fresh config).run ops = .ok (answers, s)) :
    (∀ p, s.engine.Passes p → p.store.Accurate ∧
      (∀ w i q, p.Visits w i q → q.store.Accurate) ∧
      (∀ i, p.store.slots[i]? = some none → p.remove i = .error .clauseRemoved) ∧
      (∀ is q, Propagator.removeAll is p = .ok q → is.Nodup ∧
        (∀ i ∈ is, p.store.isLive i = true) ∧
          ∀ j, q.store.isLive j = true ↔ p.store.isLive j = true ∧ j ∉ is) ∧
      (p.trail.level = 0 → Yields p.collectGarbage p.Collected)) ∧
      ∀ op, ∀ fault ∈ [Fault.clauseRemoved, .clauseTooShort, .counterUnderflow],
        s.perform op ≠ .error fault := by
  have inv := invariant_of_run run
  constructor
  · intro p passes
    have wf := inv.represents.passes passes
    refine ⟨wf.store.accurate, ?_, ?_, ?_, wf.collects⟩
    · intro w i q visits
      exact (visits.visiting wf).store.accurate
    · intro i hole
      unfold Propagator.remove
      rw [ClauseStore.remove_of_hole hole]
      rfl
    · intro is q removed
      exact Propagator.isLive_of_removeAll removed
  · intro op fault excluded failed
    rcases perform_spec inv op with ⟨full, -⟩ | ⟨_, performed, -⟩
    · rw [full] at failed
      cases failed
      exact absurd excluded (by decide)
    · rw [performed] at failed
      cases failed

/-- The first variable is true, which satisfies two of the three clauses. -/
def satisfiedOperations : List Operation :=
  [.newVar .unset true, .newVar .unset true, .newVar .unset true, .addClause [1, 2],
    .addClause [2, 3], .addClause [1, 3], .addClause [1]]

/-- Simplifying removes the first and the last clause. Then the holes are closed: the second clause
comes to be the first, with its two entries, and no other entries are left. -/
theorem store_is_accurate_satisfiedOperations : ∃ answers s,
    (fresh {}).run satisfiedOperations = .ok (answers, s) ∧
      s.perform .simplify ≠ .error .clauseRemoved ∧ ∃ p, s.engine.Passes p ∧ p.store.Accurate ∧
        p.store.problems = 1 ∧ p.store.holes = 2 ∧ p.remove 2 = .error .clauseRemoved ∧
          Yields p.collectGarbage fun q => q.store.clauses = p.store.clauses ∧
            q.store.clauses.length = 1 ∧ q.store.holes = 0 ∧ q.watches.entries.length = 2 := by
  have ran : Yields ((fresh {}).run satisfiedOperations) fun out =>
      out.2.engine.consistent = true ∧
        Yields out.2.engine.propagate fun (conflict, start) => conflict = none ∧
          Yields (Propagator.simplifyClauses start.store.live start) fun p =>
            p.trail.level = 0 ∧ p.store.size = 3 ∧ p.store.problems = 1 ∧ p.store.holes = 2 ∧
              (∃ inside : 2 < p.store.slots.size, p.store.slots[2].isNone = true) ∧
                p.store.clauses.length = 1 := by
    decide +kernel
  obtain ⟨⟨answers, s⟩, run, consistent, ⟨_, start⟩, propagated, rfl, p, cleaned, root, size, problems,
    holes, ⟨inside, removed⟩, single⟩ := ran
  have hole : p.store.slots[2]? = some none := by
    rw [Array.getElem?_eq_getElem inside, Option.isNone_iff_eq_none.1 removed]
  have passes : s.engine.Passes p :=
    .simplifying (.cleaned consistent propagated (List.prefix_refl _) cleaned)
  obtain ⟨everywhere, never⟩ := store_is_accurate run
  obtain ⟨accurate, -, again, -, collects⟩ := everywhere p passes
  refine ⟨answers, s, run, never .simplify _ (.head _), p, passes, accurate, problems, holes, again 2 hole,
    (collects root).mono ?_⟩
  intro q collected
  obtain ⟨none, two⟩ := collected.rebuilt (by rw [size, holes]; decide)
  rw [collected.clauses, single] at two
  exact ⟨collected.clauses, by rw [collected.clauses, single], none, two⟩

end Session

end IncrementalSat
