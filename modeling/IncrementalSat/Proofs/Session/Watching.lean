import IncrementalSat.Proofs.Engine.Passage
import IncrementalSat.Proofs.Propagator.Watching
import IncrementalSat.Proofs.Session.Preservation

/-!
# Watched literals in a session

Wherever an operation on a session passes through, the watch lists are right, and every change that
could follow leaves them right.
-/
namespace IncrementalSat

namespace Session

variable {config : Config} {ops : List Operation} {answers : List Answer} {s : Session}

/-- Each clause is listed once under each of the two literals it watches and nowhere else, and all
other entries are indices of removed clauses. Once everything is propagated, a false watched literal
has a true literal of no higher level in its clause. Storing and learning clauses, propagating, going
back to any level, deciding, dropping learnt clauses, deleting false literals, removing clauses and
adding resolvents, and closing holes maintain this. -/
theorem watches_are_maintained (run : (fresh config).run ops = .ok (answers, s))
    {p : Propagator s.numVars} (passes : s.engine.Passes p) :
    p.Watched ∧ p.Maintains Propagator.Watched := by
  have wf := (invariant_of_run run).represents.passes passes
  exact ⟨wf.watched, wf.maintains.mono fun _ wf' => wf'.watched⟩

/-- The first decision makes the first variable false, so the clause holds from level one on. -/
def guardedOperations : List Operation :=
  [.newVar .unset true, .newVar .unset true, .newVar .unset true, .addClause [-1, 3]]

/-- At level two the second literal of the clause becomes false. It stays watched, since the first one
is true since level one, and the watches are still right after a jump back to level one. -/
theorem watches_are_maintained_guardedOperations : ∃ answers s,
    (fresh {}).run guardedOperations = .ok (answers, s) ∧ ∃ p c, s.engine.Passes p ∧
      p.trail.level = 2 ∧ p.head = p.trail.size ∧ p.store.Has 0 c ∧
      p.trail.eval c.second = some false ∧ p.trail.depth c.second = 2 ∧
      (p.watches.get c.second).count 0 = 1 ∧
      (∃ m ∈ c.lits, p.trail.eval m = some true ∧ p.trail.depth m ≤ p.trail.depth c.second) ∧
      Yields (p.retreat 1) Propagator.Watched := by
  have ran : Yields ((fresh {}).run guardedOperations) fun out => out.2.engine.consistent = true ∧
      Yields { out.2.engine with model := #[] }.prepareSearch fun start =>
        Yields (Engine.searchStep [] false start) fun (first, e₁) => first = .running false ∧
          Yields (Engine.searchStep [] false e₁) fun (second, e₂) => second = .running false ∧
            Yields (e₂.propagating (·.propagate)) fun (conflict, e) => conflict = none ∧
              e.trail.level = 2 ∧ e.head = e.trail.size ∧ Yields (e.store.fetch 0) fun c =>
                e.trail.eval c.second = some false ∧ e.trail.depth c.second = 2 := by
    decide +kernel
  obtain ⟨⟨answers, s⟩, run, consistent, start, prepared, ⟨_, e₁⟩, first, rfl, ⟨_, e₂⟩, second, rfl,
    ⟨_, e⟩, propagated, rfl, level, done, c, fetched, falsified, depth⟩ := ran
  have begins : s.engine.Begins (([] : List (Lit s.numVars)).map Lit.toLiteral) false false start :=
    ⟨consistent, _, rfl, prepared⟩
  have reaches : Engine.Reaches [] start false e₂ := .next (.next .start first) second
  have passes : s.engine.Passes e.toPropagator :=
    .searching begins reaches (.propagated propagated)
  obtain ⟨watched, maintains⟩ := watches_are_maintained run passes
  have hc := ClauseStore.has_of_fetch fetched
  exact ⟨answers, s, run, e.toPropagator, c, passes, level, done, hc, falsified, depth,
    watched.second 0 c hc, watched.excused done 0 c hc c.second (.inr rfl) falsified,
    maintains.retreat 1⟩

end Session

end IncrementalSat
