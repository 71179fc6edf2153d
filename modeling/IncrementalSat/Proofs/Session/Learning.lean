import IncrementalSat.Proofs.Engine.Course
import IncrementalSat.Proofs.Session.Preservation

/-!
# Learning in a session

Whatever search a session is in, a conflict above level zero leads to a clause that follows from the
clauses of the store and what is fixed, and that asserts its first literal after the jump back.
-/
namespace IncrementalSat

open Analysis (Learned Shortens)

namespace Session

variable {config : Config} {ops : List Operation} {answers : List Answer} {s : Session}

/-- The analysis of a conflict that a step of a search runs into above level zero succeeds and leaves
no variable marked. The literals of what it learns are false and of the levels they should be; after
the jump back the first one is unassigned and the others are still false. Minimizing drops collected
literals only if one that stays holds wherever they do. -/
theorem analysis_learns (run : (fresh config).run ops = .ok (answers, s)) (as : List (Lit s.numVars))
    {simplify turnOff restartDue : Bool} {start e e' : Engine s.numVars}
    (begins : s.engine.Begins (as.map Lit.toLiteral) simplify turnOff start)
    (reaches : Engine.Reaches (as.map Lit.toLiteral) start restartDue e) {i : Nat}
    (conflict : e.propagating (·.propagate) = .ok (some i, e')) (above : e'.trail.level ≠ 0) :
    let p := e'.toPropagator
    let before : Analysis s.numVars :=
      { store := p.store, order := e'.order, seen := e'.seen, lower := #[], pending := 0 }
    ∃ b a, before.run p.trail i = .ok (b, a) ∧ Learned p b ∧
      (∀ l ∈ b.asserting :: b.others, p.trail.levelOf l.var = some (p.trail.depth l)) ∧
      p.retreat b.level = .ok (p.backtrack b.level) ∧
      (p.backtrack b.level).trail.eval b.asserting = none ∧
      (∀ l ∈ b.others, (p.backtrack b.level).trail.eval l = some false) ∧
      (∀ v : Fin s.numVars, a.seen.get v = false) ∧ Shortens p before i b := by
  intro p before
  have allocated : ∀ a ∈ as.map Lit.toLiteral, a.var < s.numVars := fun _ => Lit.var_lt_of_mem_map
  obtain ⟨-, begun⟩ := (invariant_of_run run).represents.begin begins allocated
  obtain ⟨searching, -, -, c, hc, conflicting⟩ :=
    (reaches.searching begun allocated).propagate.of_eq conflict
  have wf := searching.wellFormed.propagator
  obtain ⟨⟨b, a⟩, result, learned, -, -, clear, shortens⟩ :=
    Analysis.run_spec wf.toLinked above hc conflicting e'.order e'.seen searching.wellFormed.heap
      searching.wellFormed.clear
  refine ⟨b, a, result, learned, fun l hl => ?_, wf.retreat b.level,
    Propagator.eval_jump_asserting wf learned, fun l => Propagator.eval_jump_other wf learned, clear,
    shortens⟩
  exact Trail.levelOf_of_eval (learned.falsified l hl)

/-- The clauses need opposite values of the second variable where the others are false. -/
def conflictOperations : List Operation :=
  [.newVar .unset true, .newVar .unset true, .newVar .unset true, .addClause [1, 2, 3],
    .addClause [1, -2, 3]]

/-- After two decisions the clauses are in conflict, and a clause of two literals is learnt. -/
theorem analysis_learns_conflictOperations : ∃ answers s,
    (fresh {}).run conflictOperations = .ok (answers, s) ∧
      ∃ (start e : Engine s.numVars) (b : Backjump s.numVars),
        s.engine.Begins [] false false start ∧ Engine.Reaches [] start false e ∧
          b.others.length = 1 ∧ b.level = 1 ∧ ∃ e' i a,
            e.propagating (·.propagate) = .ok (some i, e') ∧ e'.trail.level = 2 ∧
            Analysis.run e'.trail ⟨e'.store, e'.order, e'.seen, #[], 0⟩ i = .ok (b, a) ∧
            (∀ σ, e'.Valid σ → Lit.AnyHolds σ (b.asserting :: b.others)) ∧
            ∀ v : Fin s.numVars, a.seen.get v = false := by
  have ran : Yields ((fresh {}).run conflictOperations) fun out => out.2.engine.consistent = true ∧
      Yields { out.2.engine with model := #[] }.prepareSearch fun start =>
        Yields (Engine.searchStep [] false start) fun (first, e₁) => first = .running false ∧
          Yields (Engine.searchStep [] false e₁) fun (second, e) => second = .running false ∧
            Yields (e.propagating (·.propagate)) fun (conflict, e') => e'.trail.level = 2 ∧
              conflict = some 1 ∧
                Yields (Analysis.run e'.trail ⟨e'.store, e'.order, e'.seen, #[], 0⟩ 1)
                  fun (b, _) => b.others.length = 1 ∧ b.level = 1 := by
    decide +kernel
  obtain ⟨⟨answers, s⟩, run, consistent, start, prepared, ⟨_, e₁⟩, first, rfl, ⟨_, e⟩, second, rfl,
    ⟨_, e'⟩, conflict, level, rfl, ⟨b, a⟩, result, size, jump⟩ := ran
  have begins : s.engine.Begins [] false false start := ⟨consistent, _, rfl, prepared⟩
  have reaches : Engine.Reaches [] start false e := .next (.next .start first) second
  obtain ⟨b', a', result', learned, -, -, -, -, clear, -⟩ :=
    analysis_learns run [] begins reaches conflict (by rw [level]; decide)
  cases result.symm.trans result'
  exact ⟨answers, s, run, start, e, b, begins, reaches, size, jump, e', 1, a, conflict, level, result,
    learned.entailed, clear⟩

end Session

end IncrementalSat
