import IncrementalSat.Proofs.Engine.Quantification
import IncrementalSat.Proofs.Session.Preservation

/-!
# What eliminating variables means for callers

Whenever a session eliminates variables, at its caller's request or as a solve starts, its problem
clauses and fixed literals are those from before with the eliminated variables quantified away. What
is needed of the past of the session is that all clauses it ever removed follow from those accepted.
-/
namespace IncrementalSat

namespace Session

variable {config : Config} {h : History} {s s' : Session} {op : Operation} {answer : Answer}
  {ops : List Operation} {answers : List Answer}

theorem derives_fresh (config : Config) (f : Formula) : (fresh config).engine.Derives f := by
  intro σ _
  unfold fresh
  dsimp only
  split <;> exact nofun

theorem derives_of_perform (inv : Invariant h s) (derived : s.engine.Derives h.accepted)
    (performed : s.perform op = .ok (answer, s')) :
    s'.engine.Derives (h.record op answer).accepted := by
  have represents := inv.represents
  by_cases other : op = .reset
  · subst other
    cases performed
    exact derives_fresh s.config _
  · have before : s'.engine.Derives h.accepted := by
      cases effect_of_perform performed with
      | allocated _ grown =>
        exact derived.grow ((Engine.newVar_spec represents.wellFormed.heap _ _).of_eq grown)
      | restarted => exact absurd rfl other
      | marked _ frame => exact derived.of_eliminations_eq (by rw [frame])
      | added _ added =>
        obtain ⟨⟨ok, p⟩, -, frame⟩ := bind_eq_ok_iff.1 added
        cases frame
        exact derived.of_eliminations_eq rfl
      | simplified simplified =>
        obtain ⟨⟨ok, p⟩, -, frame⟩ := bind_eq_ok_iff.1 simplified
        cases frame
        exact derived.of_eliminations_eq rfl
      | eliminated eliminated => exact represents.derives_of_eliminate derived eliminated
      | solved _ allocated solved => exact represents.derives_of_solve derived allocated solved
    exact before.mono fun _ => h.mem_accepted_record other

/-- Every clause that a session has removed with a variable follows from the accepted clauses. -/
theorem derives_of_run (run : (fresh config).run ops = .ok (answers, s)) :
    s.engine.Derives (History.after [] ops answers).accepted :=
  preserved_of_run (P := fun h s => s.engine.Derives h.accepted) derives_of_perform
    (Invariant.fresh config) (derives_fresh config _) run

/-- As long as no contradiction is known, an elimination answers, and it quantifies the variables
away that it eliminates. It makes no difference whether the caller asks for it or a solve starts
with it, when the variables of its assumptions are frozen. -/
theorem elimination_quantifies (run : (fresh config).run ops = .ok (answers, s))
    (consistent : s.consistent = true) :
    (∀ turnOff, ∃ ok e, s.perform (.eliminate turnOff) = .ok (.flag ok, { s with engine := e }) ∧
      s.engine.Quantifies ok e) ∧
    ∀ as turnOff, (∀ a ∈ as, a.var < s.numVars) →
      ∃ ok e, Engine.eliminateUnder { s.engine with model := #[] } as turnOff = .ok (ok, e) ∧
        s.engine.Quantifies ok e := by
  have represents := (invariant_of_run run).represents
  have derived := derives_of_run run
  constructor
  · intro turnOff
    obtain ⟨ok, e, eliminated, quantifies⟩ :=
      represents.quantifies_of_eliminate consistent derived turnOff
    refine ⟨ok, e, ?_, quantifies⟩
    simp [perform, eliminate, eliminated, bind, Except.bind, pure, Except.pure]
  · intro as turnOff allocated
    exact represents.quantifies_of_eliminateUnder consistent derived allocated turnOff

/-- A session with three clauses, of whose variables only the third must not be eliminated. -/
def quantifiedOperations : List Operation :=
  [.newVar .unset true, .newVar .unset true, .newVar .unset true, .setFrozen 3 true,
    .addClause [1, 2], .addClause [-1, 3], .addClause [-2, 3]]

/-- Some values of the first two variables satisfy the clauses if and only if the third is true. -/
theorem elimination_quantifies_quantifiedOperations : ∃ answers s e,
    (fresh {}).run quantifiedOperations = .ok (answers, s) ∧
      s.dimacs.clauses = [[1, 2], [-1, 3], [-2, 3]] ∧
      s.perform (.eliminate false) = .ok (.flag true, { s with engine := e }) ∧
      Session.dimacs { s with engine := e } = ⟨3, [[3]]⟩ ∧ s.engine.Quantifies true e := by
  have ran : Yields ((fresh {}).run quantifiedOperations) fun out => out.2.consistent = true ∧
      out.2.dimacs.clauses = [[1, 2], [-1, 3], [-2, 3]] ∧
      Yields (out.2.perform (.eliminate false)) fun out' => out'.1 = .flag true ∧
        out'.2.dimacs = ⟨3, [[3]]⟩ := by
    decide +kernel
  obtain ⟨⟨answers, s⟩, run, consistent, clauses, ⟨answer, s'⟩, performed, rfl, result⟩ := ran
  obtain ⟨ok, e, eliminated, quantifies⟩ := (elimination_quantifies run consistent).1 false
  cases performed.symm.trans eliminated
  exact ⟨answers, s, e, run, clauses, performed, result, quantifies⟩

end Session

end IncrementalSat
