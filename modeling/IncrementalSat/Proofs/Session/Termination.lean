import IncrementalSat.Proofs.Session.Soundness

/-!
# Solving ends

From every state that operations lead to, and whatever the configuration, a search under assumptions
on allocated variables comes to a verdict after finitely many steps.
-/
namespace IncrementalSat

namespace Engine

variable {n : Nat} {e : Engine n} {f : Formula} {as : List (Literal Nat)}

/-- The search of a solve ends, well within its bound. -/
theorem takes_of_represents (h : Represents f e) (consistent : e.consistent = true)
    (allocated : ∀ a ∈ as, a.var < n) : Yields e.prepareSearch fun start =>
      ∃ k ≤ searchBound n, ∃ verdict last, Takes as k false start verdict last ∧
        start.search as = .ok (verdict, last) := by
  refine (prepareSearch_spec h).mono ?_
  rintro start ⟨h', same, limit, -⟩
  obtain ⟨⟨verdict, last⟩, result, -⟩ :=
    search_spec h'.wellFormed h'.root (same.trans consistent) limit allocated
  obtain ⟨k, bound, takes⟩ := takes_of_searchUpTo result
  exact ⟨k, bound, verdict, last, takes, result⟩

end Engine

namespace Session

variable {config : Config} {ops : List Operation} {answers : List Answer} {s : Session}

/-- A solve ends, since its search does: whenever there is something left to search, the loop takes
finitely many steps to a verdict. -/
theorem solve_terminates (run : (fresh config).run ops = .ok (answers, s))
    (as : List (Lit s.numVars)) (simplify turnOff : Bool) :
    (∃ sat e, s.engine.solve (as.map Lit.toLiteral) simplify turnOff = .ok (sat, e)) ∧
      (s.consistent = true → ∃ ready e,
        { s.engine with model := #[] }.prepare (as.map Lit.toLiteral) simplify turnOff =
          .ok (ready, e) ∧
        (ready = true → ∃ start, e.prepareSearch = .ok start ∧
          ∃ k ≤ Engine.searchBound s.numVars, ∃ verdict last,
            Engine.Takes (as.map Lit.toLiteral) k false start verdict last ∧
              start.search (as.map Lit.toLiteral) = .ok (verdict, last))) := by
  have kept := (invariant_of_run run).represents
  have allocated : ∀ a ∈ as.map Lit.toLiteral, a.var < s.numVars := by
    simp only [List.forall_mem_map]
    exact fun a _ => a.var.isLt
  refine ⟨?_, fun consistent => ?_⟩
  · obtain ⟨⟨sat, e⟩, result, -⟩ := Engine.solve_spec kept allocated simplify turnOff
    exact ⟨sat, e, result⟩
  · have cleared : Engine.Represents _ { s.engine with model := #[] } :=
      kept.of_eq rfl kept.wellFormed.heap kept.wellFormed.clear rfl rfl
    obtain ⟨⟨ready, e⟩, result, represents, answer, -⟩ :=
      Engine.prepare_spec cleared consistent allocated simplify turnOff
    refine ⟨ready, e, result, fun left => ?_⟩
    subst left
    exact Engine.takes_of_represents represents answer allocated

/-- The search after an elimination makes three decisions and learns from a conflict on the way. -/
theorem solve_terminates_learningOperations : ∃ answers s,
    (fresh {}).run learningOperations = .ok (answers, s) ∧ ∃ e start k last,
      { s.engine with model := #[] }.prepare [] true false = .ok (true, e) ∧
        e.prepareSearch = .ok start ∧ k ≤ Engine.searchBound s.numVars ∧
        Engine.Takes [] k false start .sat last ∧ last.stats.decisions = 3 ∧
        last.stats.conflicts = 1 ∧ last.store.learnts = 1 := by
  have ran : Yields ((fresh {}).run learningOperations) fun out => out.2.consistent = true ∧
      Yields ({ out.2.engine with model := #[] }.prepare [] true false) fun (ready, e) =>
        ready = true ∧ Yields e.prepareSearch fun start =>
          Yields (start.search []) fun (verdict, last) => verdict = .sat ∧
            last.stats.decisions = 3 ∧ last.stats.conflicts = 1 ∧ last.store.learnts = 1 := by
    decide +kernel
  obtain ⟨⟨answers, s⟩, run, consistent, ⟨_, e⟩, prepared, rfl, start, begun, ⟨_, last⟩, searched, rfl,
    decisions, conflicts, learnts⟩ := ran
  obtain ⟨ready, e', prepared', ends⟩ := (solve_terminates run [] true false).2 consistent
  cases prepared.symm.trans prepared'
  obtain ⟨start', begun', k, bound, verdict, last', takes, searched'⟩ := ends rfl
  cases begun.symm.trans begun'
  cases searched.symm.trans searched'
  exact ⟨answers, s, run, e, start, k, last, prepared, begun, bound, takes, decisions, conflicts,
    learnts⟩

end Session

end IncrementalSat
