import IncrementalSat.Proofs.Session.Preservation

/-!
# Sessions tell the truth

Whatever the operations were since a session was created or last reset: a model that can be read
satisfies the clauses that were accepted, a solve without a model refutes them under its
assumptions, and what the engine has learnt follows from them.
-/
namespace IncrementalSat

namespace Session

variable {config : Config} {ops : List Operation} {answers : List Answer} {s : Session}

/-- A session with three variables, whose solve eliminates the first two. -/
def sampleOperations : List Operation :=
  [.newVar .unset true, .newVar .unset true, .newVar .unset true,
    .addClause [1, 2], .addClause [-1, 3], .addClause [-2, 3], .solveAssuming [3] true false]

/-- A session with five variables, of which the fifth is fixed and the fourth can be eliminated. Where
the first and the third are false, two clauses need opposite values of the second. -/
def learningOperations : List Operation :=
  [.newVar .unset true, .newVar .unset true, .newVar .unset true, .newVar .unset true,
    .newVar .unset true, .setFrozen 1 true, .setFrozen 2 true, .setFrozen 3 true,
    .addClause [1, 2, 3], .addClause [1, -2, 3], .addClause [4, -1], .addClause [-4, 3], .addClause [5]]

/-! ## Models -/

/-- A model that can be read gives every variable a value, and makes the clauses accepted so far and
the assumptions of the last solve true. -/
theorem model_of_run (run : (fresh config).run ops = .ok (answers, s))
    (decisive : (History.after [] ops answers).Decisive) {bits : List Bool}
    (model : s.model = .ok bits) :
    ∃ σ : Valuation, bits = false :: (List.finRange s.numVars).map (fun v : Fin s.numVars => σ v) ∧
      (∀ v : Fin s.numVars, s.engine.modelValue ⟨v, true⟩ = .ofBool (σ v)) ∧
      (History.after [] ops answers).accepted.Holds σ ∧
      ∀ a ∈ (History.after [] ops answers).assumptions, a.Holds σ := by
  unfold Session.model at model
  split at model
  · next ready =>
    obtain ⟨σ, values, holds, assumed⟩ := (invariant_of_run run).models ready decisive
    refine ⟨σ, ?_, values, holds, assumed⟩
    rw [← Except.ok.inj model]
    refine congrArg (false :: ·) (List.map_congr_left fun v _ => ?_)
    rw [values]
    cases σ v <;> rfl
  · cases model

theorem model_of_run_sampleOperations : ∃ answers s,
    (fresh {}).run sampleOperations = .ok (answers, s) ∧ s.model = .ok [false, true, false, true] ∧
      ∃ σ : Valuation, [false, true, false, true] =
          false :: (List.finRange s.numVars).map (fun v : Fin s.numVars => σ v) ∧
        Formula.Holds σ [[⟨1, false⟩, ⟨2, true⟩], [⟨0, false⟩, ⟨2, true⟩], [⟨0, true⟩, ⟨1, true⟩]] ∧
        σ 2 = true := by
  have ran : Yields ((fresh {}).run sampleOperations) fun out =>
      (History.after [] sampleOperations out.1).Decisive ∧
        (History.after [] sampleOperations out.1).accepted =
          [[⟨1, false⟩, ⟨2, true⟩], [⟨0, false⟩, ⟨2, true⟩], [⟨0, true⟩, ⟨1, true⟩]] ∧
        (History.after [] sampleOperations out.1).assumptions = [⟨2, true⟩] ∧
        out.2.model = .ok [false, true, false, true] := by
    decide +kernel
  obtain ⟨⟨answers, s⟩, run, decisive, accepted, assumptions, model⟩ := ran
  obtain ⟨σ, bits, -, holds, assumed⟩ := model_of_run run decisive model
  rw [accepted] at holds
  rw [assumptions] at assumed
  exact ⟨answers, s, run, model, σ, bits, holds, assumed ⟨2, true⟩ (List.mem_singleton.2 rfl)⟩

/-! ## Refutations -/

/-- If a contradiction is known, the clauses accepted so far contradict each other. A solve without
a model refutes them under its assumptions; if there are none, a contradiction is known then. -/
theorem refutation_of_run (run : (fresh config).run ops = .ok (answers, s)) :
    (s.consistent = false → (History.after [] ops answers).accepted.Unsatisfiable) ∧
      ∀ op as s', op.assumptions? = some as → s.perform op = .ok (.flag false, s') →
        (∀ σ, (History.after [] ops answers).accepted.Holds σ → ¬ ∀ a ∈ as, a.Holds σ) ∧
          (as = [] → s'.consistent = false) := by
  have inv := invariant_of_run run
  refine ⟨inv.represents.refuted, fun op as s' asked result => ?_⟩
  rcases perform_spec inv op with ⟨full, -⟩ | performed
  · rw [full] at result
    cases result
  · have performed := performed.of_eq result
    refine ⟨performed.refuted as asked rfl, fun none => ?_⟩
    rw [none] at asked
    exact performed.inconsistent asked rfl

/-- The third variable cannot be false. -/
theorem refutation_of_run_sampleOperations : ∃ answers s,
    (fresh {}).run sampleOperations = .ok (answers, s) ∧
      ∀ σ, Formula.Holds σ
        [[⟨1, false⟩, ⟨2, true⟩], [⟨0, false⟩, ⟨2, true⟩], [⟨0, true⟩, ⟨1, true⟩]] →
        ¬ Literal.Holds σ ⟨2, false⟩ := by
  have ran : Yields ((fresh {}).run sampleOperations) fun out =>
      (History.after [] sampleOperations out.1).accepted =
        [[⟨1, false⟩, ⟨2, true⟩], [⟨0, false⟩, ⟨2, true⟩], [⟨0, true⟩, ⟨1, true⟩]] ∧
        Yields (out.2.perform (.solveAssuming [-3] false false)) (fun out => out.1 = .flag false) := by
    decide +kernel
  obtain ⟨⟨answers, s⟩, run, accepted, ⟨answer, s'⟩, result, rfl⟩ := ran
  obtain ⟨refuted, -⟩ := (refutation_of_run run).2 _ _ s' rfl result
  rw [accepted] at refuted
  refine ⟨answers, s, run, fun σ holds fails => refuted σ holds fun a ha => ?_⟩
  cases List.mem_singleton.1 ha
  exact fails

/-! ## What the engine keeps -/

/-- Learnt clauses and assigned literals follow from the clauses accepted so far. Eliminated
variables, which are those of the stack of eliminations, are neither in clauses nor assigned, and no
elimination mentions the variable of an earlier one. -/
theorem hygiene_of_run (run : (fresh config).run ops = .ok (answers, s)) :
    (∀ σ, (History.after [] ops answers).accepted.Holds σ →
      (∀ i c, s.engine.store.Has i c → c.learnt = true → Lit.AnyHolds σ c.lits) ∧
        ∀ l : Lit s.numVars, s.engine.trail.eval l = some true → l.Holds σ) ∧
      (∀ v : Fin s.numVars, s.engine.isEliminated v = true ↔
        ∃ x ∈ s.engine.eliminations, x.var = v) ∧
      (∀ i c, s.engine.store.Has i c → ∀ l ∈ c.lits, s.engine.isEliminated l.var = false) ∧
      (∀ l : Lit s.numVars, s.engine.trail.eval l = some true →
        s.engine.trail.levelOf l.var = some 0 ∧ s.engine.isEliminated l.var = false) ∧
      s.engine.eliminations.Pairwise fun newer older => ¬ newer.Mentions older.var := by
  have kept := (invariant_of_run run).represents
  have fixed : ∀ l : Lit s.numVars, s.engine.trail.eval l = some true → s.engine.Fixes l := fun l =>
    (Propagator.fixes_iff_of_root kept.wellFormed.propagator.trail kept.root l).2
  have stays : ∀ v : Fin s.numVars, s.engine.Occurs v → s.engine.isEliminated v = false := by
    intro v occurs
    by_contra gone
    rw [Bool.not_eq_false] at gone
    exact kept.hygienic.absent v gone occurs
  refine ⟨fun σ holds => ⟨fun i c hc _ => ?_, fun l assigned => ?_⟩, kept.hygienic.marked, ?_, ?_,
    kept.hygienic.ordered⟩
  · exact (kept.sound σ holds).clauses i c hc
  · exact (kept.sound σ holds).facts l (fixed l assigned)
  · exact fun i c hc l hl => stays l.var (.inl ⟨i, c, hc, l, hl, rfl⟩)
  · intro l assigned
    refine ⟨?_, stays l.var (.inr ⟨l, fixed l assigned, rfl⟩)⟩
    rw [Trail.levelOf_of_eval assigned, (fixed l assigned).2]

/-- A solve eliminates the fourth variable. It leaves a problem clause of three literals beside a clause
that it has learnt, which follows from the accepted clauses, as the fixed variable does. -/
theorem hygiene_of_run_learningOperations : ∃ answers s,
    (fresh {}).run (learningOperations ++ [.solve true false]) = .ok (answers, s) ∧
      ∃ (c d : Clause s.numVars) (v w : Fin s.numVars),
        s.engine.store.Has 0 c ∧ c.learnt = false ∧ c.lits.map Lit.toSigned = [3, 2, 1] ∧
        s.engine.store.Has 5 d ∧ d.learnt = true ∧ d.lits.map Lit.toSigned = [3, 1] ∧
        (∃ x ∈ s.engine.eliminations, x.var = v) ∧ (∀ l ∈ c.lits ++ d.lits, l.var ≠ v) ∧
        s.engine.trail.levelOf w = some 0 ∧
        ∀ σ, (History.after [] (learningOperations ++ [.solve true false]) answers).accepted.Holds σ →
          Lit.AnyHolds σ d.lits ∧ σ w = true := by
  have ran : Yields ((fresh {}).run (learningOperations ++ [.solve true false])) fun out =>
      (Yields (out.2.engine.store.fetch 0) fun c =>
        c.learnt = false ∧ c.lits.map Lit.toSigned = [3, 2, 1]) ∧
      (Yields (out.2.engine.store.fetch 5) fun d =>
        d.learnt = true ∧ d.lits.map Lit.toSigned = [3, 1]) ∧
      (∃ v : Fin out.2.numVars, out.2.engine.isEliminated v = true) ∧
      ∃ w : Fin out.2.numVars, out.2.engine.trail.eval ⟨w, true⟩ = some true := by
    decide +kernel
  obtain ⟨⟨answers, s⟩, run, ⟨c, fetched, problem, lits⟩, ⟨d, fetched', learnt, lits'⟩, ⟨v, gone⟩, w,
    assigned⟩ := ran
  have hc := ClauseStore.has_of_fetch fetched
  have hd := ClauseStore.has_of_fetch fetched'
  obtain ⟨follows, marked, absent, fixed, -⟩ := hygiene_of_run run
  refine ⟨answers, s, run, c, d, v, w, hc, problem, lits, hd, learnt, lits', (marked v).1 gone, ?_,
    (fixed _ assigned).1, fun σ holds => ?_⟩
  · intro l hl same
    have stays : s.engine.isEliminated l.var = false := by
      rcases List.mem_append.1 hl with inside | inside
      · exact absent 0 c hc l inside
      · exact absent 5 d hd l inside
    rw [same, gone] at stays
    cases stays
  · obtain ⟨clauses, facts⟩ := follows σ holds
    exact ⟨clauses 5 d hd learnt, facts _ assigned⟩

end Session

end IncrementalSat
