import IncrementalSat.Proofs.Dimacs.Reading
import IncrementalSat.Proofs.Engine.Projection
import IncrementalSat.Proofs.Session.Capacity
import IncrementalSat.Proofs.Signed

/-!
# Exported formulas are faithful

As long as no contradiction is known, the text of a session can be read, its header is right, and
its clauses say about the variables that were not eliminated what the clauses accepted so far say.
-/
namespace IncrementalSat

/-- The formula that clauses of signed literals stand for. -/
def Formula.ofSigned (clauses : List (List Int32)) : Formula := clauses.map Literal.ofAllSigned

namespace Session

variable {config : Config} {ops : List Operation} {answers : List Answer} {s : Session}

/-! ## What is written -/

theorem clauses_dimacs (s : Session) :
    s.dimacs.clauses = s.engine.stated.map fun c => c.map Lit.toSigned := by
  simp [dimacs, Propagator.stated]

section

variable (few : s.numVars ≤ maxVars)

include few

theorem var_lt_maxVars (l : Lit s.numVars) : l.toLiteral.var < 2147483647 :=
  Nat.lt_of_lt_of_le l.var.isLt few

/-- Every literal that is written stands for the literal it was written for. -/
theorem ofSigned_toSigned (l : Lit s.numVars) : Literal.ofSigned l.toSigned = .ok l.toLiteral :=
  Literal.ofSigned_toSigned (var_lt_maxVars few l)

theorem map_ofSigned (ls : List (Lit s.numVars)) :
    (ls.map Lit.toSigned).map Literal.ofSigned = ls.map fun l => .ok l.toLiteral := by
  rw [List.map_map]
  exact List.map_congr_left fun l _ => ofSigned_toSigned few l

theorem ofAllSigned_map_toSigned (ls : List (Lit s.numVars)) :
    Literal.ofAllSigned (ls.map Lit.toSigned) = ls.map Lit.toLiteral := by
  unfold Literal.ofAllSigned
  simp [ofSigned_toSigned few, Except.toOption]

/-- The formula that is written holds where what is required holds. -/
theorem holds_dimacs_iff {h : History} (inv : Invariant h s) (σ : Valuation) :
    (Formula.ofSigned s.dimacs.clauses).Holds σ ↔ s.engine.Requires σ := by
  rw [Propagator.requires_iff inv.represents.wellFormed.propagator.trail inv.represents.root,
    clauses_dimacs]
  simp only [Formula.ofSigned, Formula.Holds, List.forall_mem_map, ofAllSigned_map_toSigned few,
    Propagator.clauseHolds_map_iff]

/-- Every literal that is written is a number other than zero, so the text can be read. -/
theorem read_dimacs : Dimacs.Reading.ofText? s.dimacs.render =
    some ⟨s.numVars, s.dimacs.clauses.length, s.dimacs.clauses⟩ := by
  refine Dimacs.read_render s.dimacs ?_
  rw [clauses_dimacs, List.forall_mem_map]
  intro c _ zero
  obtain ⟨l, -, eq⟩ := List.mem_map.1 zero
  exact Literal.toSigned_ne_zero (var_lt_maxVars few l) eq

end

/-! ## What it says -/

/-- The text of a session without a known contradiction can be read. Its header states the number of
variables and the number of the clauses that follow. These are, literal by literal, the literals
that are true for good and then the problem clauses, and they hold under a valuation if the clauses
accepted so far hold under one that differs from it on eliminated variables only. -/
theorem dimacs_of_run (run : (fresh config).run ops = .ok (answers, s))
    (consistent : s.consistent = true) :
    ∃ clauses, Dimacs.Reading.ofText? s.dimacs.render = some ⟨s.numVars, clauses.length, clauses⟩ ∧
      clauses.map (fun c => c.map Literal.ofSigned) =
        s.engine.trail.lits.toList.map (fun l => [.ok l.toLiteral]) ++
          s.engine.problemClauses.map (fun c => c.map fun l => .ok l.toLiteral) ∧
      s.engine.trail.level = 0 ∧
      (∀ σ, (Formula.ofSigned clauses).Holds σ ↔ ∃ τ,
        (∀ k, (∀ v : Fin s.numVars, s.engine.isEliminated v = true → v.val ≠ k) → τ k = σ k) ∧
          (History.after [] ops answers).accepted.Holds τ) ∧
      ((Formula.ofSigned clauses).Unsatisfiable ↔
        (History.after [] ops answers).accepted.Unsatisfiable) := by
  have inv := invariant_of_run run
  have few := numVars_le_of_run_from run (Nat.zero_le _)
  have holds : ∀ σ, (Formula.ofSigned s.dimacs.clauses).Holds σ ↔ ∃ τ, s.engine.AgreeOnKept σ τ ∧
      (History.after [] ops answers).accepted.Holds τ := fun σ =>
    (holds_dimacs_iff few inv σ).trans (inv.represents.requires_iff consistent)
  refine ⟨s.dimacs.clauses, read_dimacs few, ?_, inv.represents.root, holds, ?_, ?_⟩
  · rw [clauses_dimacs, List.map_map]
    refine (List.map_congr_left fun c _ => map_ofSigned few c).trans ?_
    simp [Propagator.stated, Propagator.fixed]
  · exact fun unsat τ accepted => unsat τ ((holds τ).2 ⟨τ, fun _ _ => rfl, accepted⟩)
  · intro unsat σ written
    obtain ⟨τ, -, accepted⟩ := (holds σ).1 written
    exact unsat τ accepted

/-- A session with three variables, of which the first is eliminated and the second fixed. -/
def exportOperations : List Operation :=
  [.newVar .unset true, .newVar .unset true, .newVar .unset true,
    .addClause [1, 2], .addClause [-1, 3], .addClause [-2, 3], .setFrozen 2 true, .setFrozen 3 true,
    .eliminate false, .addClause [-2]]

theorem dimacs_of_run_exportOperations : ∃ answers s,
    (fresh {}).run exportOperations = .ok (answers, s) ∧
      Dimacs.Reading.ofText? "p cnf 3 4\n-2 0\n3 0\n-2 3 0\n3 2 0\n" =
        some ⟨s.numVars, 4, [[-2], [3], [-2, 3], [3, 2]]⟩ ∧
      ∀ σ, (Formula.ofSigned [[-2], [3], [-2, 3], [3, 2]]).Holds σ ↔ ∃ τ,
        (∀ k, (∀ v : Fin s.numVars, s.engine.isEliminated v = true → v.val ≠ k) → τ k = σ k) ∧
          Formula.Holds τ [[⟨1, false⟩], [⟨1, false⟩, ⟨2, true⟩], [⟨0, false⟩, ⟨2, true⟩],
            [⟨0, true⟩, ⟨1, true⟩]] := by
  have ran : Yields ((fresh {}).run exportOperations) fun out =>
      (History.after [] exportOperations out.1).accepted = [[⟨1, false⟩], [⟨1, false⟩, ⟨2, true⟩],
        [⟨0, false⟩, ⟨2, true⟩], [⟨0, true⟩, ⟨1, true⟩]] ∧
        out.2.dimacs = ⟨3, [[-2], [3], [-2, 3], [3, 2]]⟩ ∧ out.2.consistent = true := by
    decide +kernel
  obtain ⟨⟨answers, s⟩, run, accepted, written, consistent⟩ := ran
  obtain ⟨clauses, read, -, -, holds, -⟩ := dimacs_of_run run consistent
  have text : (⟨3, [[-2], [3], [-2, 3], [3, 2]]⟩ : Dimacs).render =
      "p cnf 3 4\n-2 0\n3 0\n-2 3 0\n3 2 0\n" := by
    decide +kernel
  have found : Dimacs.Reading.ofText? "p cnf 3 4\n-2 0\n3 0\n-2 3 0\n3 2 0\n" =
      some ⟨3, 4, [[-2], [3], [-2, 3], [3, 2]]⟩ := by
    decide +kernel
  rw [written, text, found, Option.some.injEq, Dimacs.Reading.mk.injEq] at read
  obtain ⟨three, -, rfl⟩ := read
  rw [accepted] at holds
  exact ⟨answers, s, run, three ▸ found, holds⟩

end Session

end IncrementalSat
