import IncrementalSat.Proofs.Engine.Contradiction
import IncrementalSat.Proofs.Session.Export

/-!
# What is exported after a contradiction

The formula that a contradicted session exports is unsatisfiable, with two exceptions: the
contradiction may have come from a clause all of whose literals were false for good, which is not
stored; and it may have been met while variables were being eliminated, when their clauses are gone
but not all of the resolvents are there yet. Nothing that is done before the session is reset
changes what it exports.
-/
namespace IncrementalSat

namespace Session

variable {config : Config} {h : History} {s s' s'' : Session} {op : Operation} {answer : Answer}
  {ops more : List Operation} {answers answers' : List Answer}

/-- The second session exports what the first does, and both are contradicted or neither is. -/
structure ExportsAlike (s s' : Session) : Prop where
  consistent : s'.consistent = s.consistent
  clauses : s'.dimacs.clauses = s.dimacs.clauses

namespace ExportsAlike

theorem of_toPropagator_eq {e : Engine s.numVars} (same : e.toPropagator = s.engine.toPropagator)
    (config : Config) (solved ready : Bool) :
    ExportsAlike s ⟨s.numVars, e, config, solved, ready⟩ where
  consistent := congrArg Propagator.consistent same
  clauses := by
    rw [clauses_dimacs, clauses_dimacs]
    exact congrArg (fun p => p.stated.map fun c => c.map Lit.toSigned) same

theorem of_newVar {polarity : Truth} {decision : Bool} {e : Engine (s.numVars + 1)}
    (grown : s.engine.newVar polarity decision = .ok e) (config : Config) (solved ready : Bool) :
    ExportsAlike s ⟨s.numVars + 1, e, config, solved, ready⟩ := by
  obtain ⟨order, -, result⟩ := bind_eq_ok_iff.1 grown
  cases result
  constructor
  · rfl
  · rw [clauses_dimacs, clauses_dimacs]
    change s.engine.grow.stated.map _ = _
    rw [Propagator.stated_grow, List.map_map]
    apply List.map_congr_left
    intro c _
    exact List.map_map

theorem trans (first : ExportsAlike s s') (second : ExportsAlike s' s'') : ExportsAlike s s'' where
  consistent := second.consistent.trans first.consistent
  clauses := second.clauses.trans first.clauses

end ExportsAlike

/-! ## After a contradiction -/

/-- Only a reset makes a difference to a contradicted session. -/
theorem exportsAlike_of_perform (inv : Invariant h s) (contradicted : s.consistent = false)
    (performed : s.perform op = .ok (answer, s')) (kept : op ≠ .reset) : ExportsAlike s s' := by
  have represents := inv.represents
  cases effect_of_perform performed with
  | allocated _ grown => exact .of_newVar grown _ _ _
  | restarted => exact absurd rfl kept
  | marked _ frame => exact .of_toPropagator_eq (by rw [frame]) _ _ _
  | added _ added =>
    rw [represents.addClause_of_contradicted contradicted] at added
    cases added
    exact .of_toPropagator_eq rfl _ _ _
  | simplified simplified =>
    rw [represents.simplify_of_contradicted contradicted] at simplified
    cases simplified
    exact .of_toPropagator_eq rfl _ _ _
  | eliminated eliminated =>
    rw [represents.eliminate_of_contradicted contradicted] at eliminated
    cases eliminated
    exact .of_toPropagator_eq rfl _ _ _
  | solved _ _ solved =>
    rw [Engine.solve_of_contradicted contradicted] at solved
    cases solved
    exact .of_toPropagator_eq (e := { s.engine with model := #[] }) rfl _ _ _

theorem exportsAlike_of_run (inv : Invariant h s) (contradicted : s.consistent = false)
    (run : s.run ops = .ok (answers, s')) (kept : .reset ∉ ops) : ExportsAlike s s' := by
  refine related_of_run (P := fun s => s.consistent = false) (fun _ => ⟨rfl, rfl⟩) .trans ?_ inv
    contradicted run kept
  intro h s op answer s' inv contradicted performed other
  have alike := exportsAlike_of_perform inv contradicted performed other
  exact ⟨alike, alike.consistent.trans contradicted⟩

/-! ## How contradictions come about -/

theorem consistent_fresh (config : Config) : (fresh config).consistent = true := by
  unfold fresh Session.consistent
  dsimp only
  split <;> rfl

/-- The operation is about to add a clause all of whose literals are false for good. -/
def Empties (s : Session) : Operation → Prop
  | .addClause lits => ∀ l ∈ Literal.ofAllSigned lits, s.engine.trail.Falsifies l
  | _ => False

/-- A clause that leads to a contradiction has no literal left, or nothing satisfies what is stated
with it. -/
theorem contradiction_of_addClause (inv : Invariant h s) (consistent : s.consistent = true)
    {lits : List Int32} {ms : List (Lit s.numVars)} {ok : Bool} {e : Engine s.numVars}
    (read : s.usableLiterals lits = .ok ms)
    (added : s.engine.addClause (ms.map Lit.toLiteral) = .ok (ok, e))
    (contradicted : e.consistent = false) :
    (s.Empties (.addClause lits) ∧ e.stated = s.engine.stated) ∨ e.Refuted := by
  have represents := inv.represents
  obtain ⟨same, usable⟩ := usableLiterals_spec read
  by_cases emptied : ∀ l ∈ ms.map Lit.toLiteral, s.engine.trail.Falsifies l
  · left
    constructor
    · change ∀ l ∈ Literal.ofAllSigned lits, s.engine.trail.Falsifies l
      rwa [same]
    · rw [represents.toPropagator_of_falsified consistent emptied added]
      rfl
  · right
    push Not at emptied
    exact represents.refuted_of_addClause consistent (fun _ => Lit.var_lt_of_mem_map)
      (represents.hygienic.free_of_usable usable) emptied added contradicted

/-- An operation that leads to a contradiction adds a clause without a literal left, or did nothing
but eliminate variables, or nothing satisfies what is stated afterwards. -/
theorem contradiction_of_perform (inv : Invariant h s) (consistent : s.consistent = true)
    (performed : s.perform op = .ok (answer, s')) (contradicted : s'.consistent = false) :
    (s.Empties op ∧ s'.dimacs.clauses = s.dimacs.clauses) ∨
      s.engine.EliminatesOnly s'.engine ∨ s'.engine.Refuted := by
  have represents := inv.represents
  cases effect_of_perform performed with
  | allocated _ grown =>
    have same := (ExportsAlike.of_newVar grown s.config s.solvedByStrategy false).consistent
    cases contradicted.symm.trans (same.trans consistent)
  | restarted => cases contradicted.symm.trans (consistent_fresh s.config)
  | marked _ frame =>
    rw [frame] at contradicted
    cases contradicted.symm.trans consistent
  | added read added =>
    rcases contradiction_of_addClause inv consistent read added contradicted with
      ⟨emptied, stated⟩ | refuted
    · left
      rw [clauses_dimacs, clauses_dimacs]
      exact ⟨emptied, congrArg (·.map fun c => c.map Lit.toSigned) stated⟩
    · exact .inr (.inr refuted)
  | simplified simplified =>
    exact .inr (.inr (represents.refuted_of_simplify consistent simplified contradicted))
  | eliminated eliminated =>
    exact .inr (represents.refuted_of_eliminate consistent eliminated contradicted).symm
  | solved _ allocated solved =>
    exact .inr (represents.refuted_of_solve consistent allocated solved contradicted).symm

/-! ## Runs -/

/-- A run that ends contradicted was contradicted all along, or some operation led from a consistent
session to a contradiction and no reset came after it. -/
theorem exists_contradiction_of_run (run : s.run ops = .ok (answers, s''))
    (contradicted : s''.consistent = false) : (s.consistent = false ∧ .reset ∉ ops) ∨
      ∃ before op more answers₁ s₁ answer s₂ answers₂, ops = before ++ op :: more ∧
        s.run before = .ok (answers₁, s₁) ∧ s₁.consistent = true ∧
        s₁.perform op = .ok (answer, s₂) ∧ s₂.consistent = false ∧
        s₂.run more = .ok (answers₂, s'') ∧ .reset ∉ more := by
  induction ops generalizing s answers with
  | nil =>
    cases run
    exact .inl ⟨contradicted, List.not_mem_nil⟩
  | cons op ops ih =>
    obtain ⟨answer, s₁, answers₁, performed, later, -⟩ := exists_of_run_cons run
    rcases ih later with ⟨inconsistent, kept⟩ | ⟨before, next, more, answers₂, t₁, answer₂, t₂, answers₃,
      rfl, ran, rest⟩
    · cases consistent : s.consistent with
      | true =>
        exact .inr ⟨[], op, ops, [], s, answer, s₁, answers₁, rfl, rfl, consistent, performed,
          inconsistent, later, kept⟩
      | false =>
        left
        refine ⟨rfl, fun mem => ?_⟩
        rcases List.mem_cons.1 mem with rfl | mem
        · cases performed
          cases inconsistent.symm.trans (consistent_fresh s.config)
        · exact kept mem
    · right
      refine ⟨op :: before, next, more, answer :: answers₂, t₁, answer₂, t₂, answers₃, rfl, ?_, rest⟩
      unfold Session.run
      rw [performed]
      change (s₁.run before >>= _) = _
      rw [ran]
      rfl

/-- The formula that is exported after a contradiction is unsatisfiable, whatever is done before a
reset, unless the contradiction came from a clause without a literal left, or was met while
variables were being eliminated. In the first case what is exported is what was exported before. -/
theorem dimacs_of_contradiction (run : (fresh config).run ops = .ok (answers, s))
    (consistent : s.consistent = true) (performed : s.perform op = .ok (answer, s'))
    (contradicted : s'.consistent = false) (later : s'.run more = .ok (answers', s''))
    (kept : .reset ∉ more) :
    s''.consistent = false ∧
      ((s.Empties op ∧ s''.dimacs.clauses = s.dimacs.clauses) ∨
        s.engine.EliminatesOnly s'.engine ∨
        (Formula.ofSigned s''.dimacs.clauses).Unsatisfiable) := by
  have inv := invariant_of_run run
  have inv' := (performed_of_perform inv performed).invariant
  have few := numVars_le_of_perform performed (numVars_le_of_run_from run (Nat.zero_le _))
  have alike := exportsAlike_of_run inv' contradicted later kept
  refine ⟨alike.consistent.trans contradicted, ?_⟩
  rw [alike.clauses]
  rcases contradiction_of_perform inv consistent performed contradicted with
    emptied | only | refuted
  · exact .inl emptied
  · exact .inr (.inl only)
  · exact .inr (.inr fun σ holds => refuted σ ((holds_dimacs_iff few inv' σ).1 holds))

/-- A session with two variables and all four clauses on both. -/
def contradictoryOperations : List Operation :=
  [.newVar .unset true, .newVar .unset true,
    .addClause [1, 2], .addClause [1, -2], .addClause [-1, 2], .addClause [-1, -2]]

/-- A search finds the contradiction, which is still exported after a variable was allocated. -/
theorem dimacs_of_contradiction_contradictoryOperations : ∃ answers s s' s'',
    (fresh {}).run contradictoryOperations = .ok (answers, s) ∧
      s.perform (.solve false false) = .ok (.flag false, s') ∧
      s'.run [.newVar .unset true] = .ok ([.literal 3], s'') ∧ s''.consistent = false ∧
      (Formula.ofSigned s''.dimacs.clauses).Unsatisfiable := by
  have ran : Yields ((fresh {}).run contradictoryOperations) fun out => out.2.consistent = true ∧
      Yields (out.2.perform (.solve false false)) fun out' => out'.1 = .flag false ∧
        out'.2.consistent = false ∧
        out'.2.engine.eliminations.length = out.2.engine.eliminations.length ∧
        Yields (out'.2.run [.newVar .unset true]) fun out'' => out''.1 = [.literal 3] := by
    decide +kernel
  obtain ⟨⟨answers, s⟩, run, consistent, ⟨answer, s'⟩, performed, rfl, contradicted, none,
    ⟨answers', s''⟩, later, rfl⟩ := ran
  obtain ⟨still, cause⟩ :=
    dimacs_of_contradiction run consistent performed contradicted later (by decide)
  refine ⟨answers, s, s', s'', run, performed, later, still, ?_⟩
  rcases cause with ⟨emptied, -⟩ | ⟨-, fewer⟩ | unsat
  · exact emptied.elim
  · exact absurd none (Nat.ne_of_gt fewer)
  · exact unsat

/-- Both exceptions occur. A clause that contradicts a fixed literal is not exported, and neither is
what a contradiction took that was met while a variable was being eliminated. In both cases the
session knows of the contradiction, yet what it exports can be satisfied. -/
theorem dimacs_satisfiable_of_contradiction :
    (∃ answers s, (fresh {}).run [.newVar .unset true, .addClause [1], .addClause [-1]] =
        .ok (answers, s) ∧ s.consistent = false ∧
      (Formula.ofSigned s.dimacs.clauses).Holds fun _ => true) ∧
    ∃ answers s, (fresh {}).run (contradictoryOperations ++ [.setFrozen 2 true, .eliminate false]) =
        .ok (answers, s) ∧ s.consistent = false ∧
      (Formula.ofSigned s.dimacs.clauses).Holds fun _ => true := by
  have emptied : Yields ((fresh {}).run [.newVar .unset true, .addClause [1], .addClause [-1]])
      fun out => out.2.consistent = false ∧ Formula.ofSigned out.2.dimacs.clauses = [[⟨0, true⟩]] := by
    decide +kernel
  have stopped : Yields ((fresh {}).run (contradictoryOperations ++
      [.setFrozen 2 true, .eliminate false])) fun out => out.2.consistent = false ∧
        Formula.ofSigned out.2.dimacs.clauses = [[⟨1, true⟩]] := by
    decide +kernel
  have satisfied : ∀ k, Formula.Holds (fun _ => true) [[⟨k, true⟩]] := by
    simp [Formula.Holds, Formula.ClauseHolds, Literal.Holds]
  obtain ⟨⟨answers, s⟩, run, contradicted, clauses⟩ := emptied
  obtain ⟨⟨answers', s'⟩, run', contradicted', clauses'⟩ := stopped
  exact ⟨⟨answers, s, run, contradicted, clauses ▸ satisfied 0⟩,
    ⟨answers', s', run', contradicted', clauses' ▸ satisfied 1⟩⟩

end Session

end IncrementalSat
