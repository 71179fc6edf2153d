import IncrementalSat.Proofs.Elimination.Bounds
import IncrementalSat.Proofs.Session.Preservation

/-!
# Elimination in a session is bounded

An engine keeps the configuration its session was created with. Whenever the session eliminates
variables, at its caller's request or as a solve starts, the bounds of that configuration are kept,
and neither the problem clauses nor the learnt clauses get more.
-/
namespace IncrementalSat

namespace Session

variable {config : Config} {h : History} {s s' : Session} {op : Operation} {answer : Answer}
  {ops : List Operation} {answers : List Answer}

/-- Session and engine have this configuration. -/
structure Configured (config : Config) (s : Session) : Prop where
  session : s.config = config
  engine : s.engine.config = config

theorem configured_fresh (config : Config) : (fresh config).Configured config where
  session := rfl
  engine := by
    unfold fresh
    dsimp only
    split <;> rfl

theorem configured_of_perform (inv : Invariant h s) (configured : s.Configured config)
    (performed : s.perform op = .ok (answer, s')) : s'.Configured config := by
  obtain ⟨same, engine⟩ := configured
  have represents := inv.represents
  cases effect_of_perform performed with
  | allocated _ grown =>
    obtain ⟨order, -, result⟩ := bind_eq_ok_iff.1 grown
    cases result
    exact ⟨same, engine⟩
  | restarted =>
    rw [reset, same]
    exact configured_fresh config
  | marked _ frame =>
    refine ⟨same, ?_⟩
    rw [frame]
    exact engine
  | added _ added =>
    obtain ⟨⟨ok, p⟩, -, frame⟩ := bind_eq_ok_iff.1 added
    cases frame
    exact ⟨same, engine⟩
  | simplified simplified =>
    obtain ⟨⟨ok, p⟩, -, frame⟩ := bind_eq_ok_iff.1 simplified
    cases frame
    exact ⟨same, engine⟩
  | @eliminated turnOff _ _ eliminated =>
    obtain ⟨-, -, sheds⟩ := (represents.eliminate turnOff).of_eq eliminated
    exact ⟨same, sheds.config.trans engine⟩
  | solved _ allocated solved =>
    have solved := (Engine.solve_spec represents allocated _ _).of_eq solved
    exact ⟨same, solved.config.trans engine⟩

/-- As long as no contradiction is known, an elimination answers and stays within the bounds of the
configuration, whether it finds a contradiction or not. It makes no difference whether the caller
asks for it or a solve starts with it, when the variables of its assumptions are frozen. -/
theorem elimination_stays_within (run : (fresh config).run ops = .ok (answers, s))
    (consistent : s.consistent = true) :
    (∀ turnOff, ∃ ok e vs,
      s.perform (.eliminate turnOff) = .ok (.flag ok, { s with engine := e }) ∧
        s.engine.StaysWithin config turnOff vs e) ∧
    ∀ as turnOff, (∀ a ∈ as, a.var < s.numVars) → ∃ frozen e₁ ok e vs,
      Engine.freezeAll as { s.engine with model := #[] } = .ok (frozen, e₁) ∧
        e₁.eliminate turnOff = .ok (ok, e) ∧ e₁.store = s.engine.store ∧
          e₁.StaysWithin config turnOff vs e := by
  have represents := (invariant_of_run run).represents
  have configured : s.Configured config :=
    preserved_of_run (P := fun _ s => s.Configured config) configured_of_perform
      (Invariant.fresh config) (configured_fresh config) run
  have same := configured.engine
  constructor
  · intro turnOff
    obtain ⟨⟨ok, e⟩, eliminated, vs, within⟩ := represents.staysWithin consistent turnOff
    rw [same] at within
    refine ⟨ok, e, vs, ?_, within⟩
    simp [perform, eliminate, eliminated, bind, Except.bind, pure, Except.pure]
  · intro as turnOff allocated
    obtain ⟨⟨frozen, e₁⟩, froze, refrozen, -⟩ :=
      Engine.freezeAll_spec as { s.engine with model := #[] } allocated
    have frame : e₁.toPropagator = s.engine.toPropagator ∧ e₁.config = s.engine.config := by
      rw [refrozen]
      exact ⟨rfl, rfl⟩
    have consistent' : e₁.consistent = true := by
      rw [frame.1]
      exact consistent
    obtain ⟨⟨ok, e⟩, eliminated, vs, within⟩ :=
      (refrozen.represents represents.clearModel).staysWithin consistent' turnOff
    rw [frame.2, same] at within
    exact ⟨frozen, e₁, ok, e, vs, froze, eliminated, by rw [frame.1], within⟩

/-- Resolvents may have two literals, and variables that are eliminated may be in two clauses. -/
def tightConfig : Config := { resolventLimit := 2, occurrenceLimit := 2 }

/-- Four variables, of which the first two may be eliminated. -/
def boundedOperations : List Operation :=
  [.newVar .unset true, .newVar .unset true, .newVar .unset true, .newVar .unset true,
    .setFrozen 3 true, .setFrozen 4 true, .addClause [1, 2], .addClause [-1, 3],
    .addClause [-2, 3, 4]]

/-- Both are eliminated, and one clause is left, a resolvent of a resolvent. -/
theorem elimination_stays_within_boundedOperations : ∃ answers s e,
    (fresh tightConfig).run boundedOperations = .ok (answers, s) ∧
      s.dimacs.clauses = [[1, 2], [-1, 3], [-2, 3, 4]] ∧
      s.perform (.eliminate false) = .ok (.flag true, { s with engine := e }) ∧
      Session.dimacs { s with engine := e } = ⟨4, [[3, 4]]⟩ ∧
      ∃ vs, (∀ v : Fin s.numVars, v ∈ vs ↔ v.val < 2) ∧
        s.engine.StaysWithin tightConfig false vs e := by
  have ran : Yields ((fresh tightConfig).run boundedOperations) fun out =>
      out.2.consistent = true ∧ out.2.dimacs.clauses = [[1, 2], [-1, 3], [-2, 3, 4]] ∧
        (∀ v : Fin out.2.numVars, out.2.engine.isEliminated v = false) ∧
        Yields (out.2.perform (.eliminate false)) fun out' => out'.1 = .flag true ∧
          out'.2.dimacs = ⟨4, [[3, 4]]⟩ ∧
          ∀ v : Fin out'.2.numVars, out'.2.engine.isEliminated v = decide (v.val < 2) := by
    decide +kernel
  obtain ⟨⟨answers, s⟩, run, consistent, clauses, kept, ⟨answer, s'⟩, performed, rfl, result,
    gone⟩ := ran
  obtain ⟨ok, e, vs, eliminated, within⟩ := (elimination_stays_within run consistent).1 false
  cases performed.symm.trans eliminated
  refine ⟨answers, s, e, run, clauses, performed, result, vs, fun v => ?_, within⟩
  have marked := within.eliminated v
  rw [kept v] at marked
  simpa [gone v] using marked.symm

end Session

end IncrementalSat
