import IncrementalSat.Proofs.Engine.Transience
import IncrementalSat.Proofs.Session.Preservation

/-!
# Assumptions in a session

What is assumed for one solve has no bearing on later calls: unless it eliminates variables, a solve
leaves the problem as it found it.
-/
namespace IncrementalSat

namespace Session

variable {config : Config} {ops : List Operation} {answers : List Answer} {s : Session}

/-- Whatever a solve without elimination answers, the problem clauses stay in their order, each but for
the order of its literals, and so do the marks and the eliminations. What was fixed stays in front of
what is fixed, all of which follows from the accepted clauses alone and has been propagated unless a
contradiction is known. The problem that later calls face admits the same valuations as before. -/
theorem solve_is_traceless (run : (fresh config).run ops = .ok (answers, s))
    (as : List (Lit s.numVars)) (turnOff : Bool) :
    Yields (s.engine.solve (as.map Lit.toLiteral) false turnOff) fun (_, e) =>
      s.engine.Traceless (History.after [] ops answers).accepted e :=
  (invariant_of_run run).represents.solve_traceless (fun _ => Lit.var_lt_of_mem_map) turnOff

/-- Whatever the second and the third variable are, the first one has to be true. -/
def forcingOperations : List Operation :=
  [.newVar .unset true, .newVar .unset true, .newVar .unset true, .addClause [1, 2, 3],
    .addClause [1, -2, 3], .addClause [1, 2, -3], .addClause [1, -2, -3]]

/-- Assuming that the first variable is false fails. In the course of it the variable is found to be
true, which it is anyway, and the literals of the clauses change places. -/
theorem solve_is_traceless_forcingOperations : ∃ answers s,
    (fresh {}).run forcingOperations = .ok (answers, s) ∧ ∃ (v : Fin s.numVars) (e : Engine s.numVars),
      v.val = 0 ∧ s.engine.solve [⟨v.val, false⟩] false false = .ok (false, e) ∧
        s.dimacs.clauses = [[1, 2, 3], [1, -2, 3], [1, 2, -3], [1, -2, -3]] ∧
        Session.dimacs { s with engine := e } =
          ⟨3, [[1], [2, 3, 1], [-2, 3, 1], [2, -3, 1], [-2, -3, 1]]⟩ ∧
        e.head = e.trail.size ∧ (∀ σ, e.Admits σ ↔ s.engine.Admits σ) ∧
        ∀ l ∈ e.fixed, ∀ σ, (History.after [] forcingOperations answers).accepted.Holds σ →
          l.Holds σ := by
  have ran : Yields ((fresh {}).run forcingOperations) fun out => ∃ v : Fin out.2.numVars, v.val = 0 ∧
      out.2.dimacs.clauses = [[1, 2, 3], [1, -2, 3], [1, 2, -3], [1, -2, -3]] ∧
      Yields (out.2.engine.solve ([⟨v, false⟩].map Lit.toLiteral) false false) fun (sat, e) =>
        sat = false ∧ e.consistent = true ∧ Session.dimacs { out.2 with engine := e } =
          ⟨3, [[1], [2, 3, 1], [-2, 3, 1], [2, -3, 1], [-2, -3, 1]]⟩ := by
    decide +kernel
  obtain ⟨⟨answers, s⟩, run, v, first, before, ⟨_, e⟩, solved, rfl, consistent, after⟩ := ran
  have traceless := (solve_is_traceless run [⟨v, false⟩] false).of_eq solved
  exact ⟨answers, s, run, v, e, first, solved, before, after, (traceless.propagated consistent).1,
    traceless.admits, traceless.entailed⟩

end Session

end IncrementalSat
