import IncrementalSat.Proofs.Propagator.Remainder
import IncrementalSat.Proofs.Session.Preservation

/-!
# Adding a clause to a session

Between the operations of a session the trail is at level zero, so as long as no contradiction is
known, the set of its literals decides what a new clause does to the engine.
-/
namespace IncrementalSat

namespace Session

variable {config : Config} {ops : List Operation} {answers : List Answer} {s : Session}

/-- As long as no contradiction is known, a clause of allocated variables can be added. If it
contains opposite literals or one that is true for good, then the engine stays as it is. Otherwise
its literals that are not false for good become a contradiction, a fact or a clause in the order of
their codes. Lists with the same literals have the same effect and answer. -/
theorem clause_added_as_set (run : (fresh config).run ops = .ok (answers, s))
    (consistent : s.consistent = true) (ls : List (Lit s.numVars)) :
    s.engine.trail.level = 0 ∧
      (s.engine.Idles ls ∧ s.engine.addClause (ls.map Lit.toLiteral) = .ok (true, s.engine) ∨
        ¬ s.engine.Idles ls ∧ ∃ rest ok p, s.engine.Remains ls rest ∧ s.engine.Adds rest ok p ∧
          s.engine.addClause (ls.map Lit.toLiteral) =
            .ok (ok, { s.engine with toPropagator := p })) ∧
      ∀ ms : List (Lit s.numVars), (∀ l, l ∈ ms ↔ l ∈ ls) →
        s.engine.addClause (ms.map Lit.toLiteral) = s.engine.addClause (ls.map Lit.toLiteral) := by
  have represents := (invariant_of_run run).represents
  have root := represents.root
  have wf := represents.wellFormed.propagator
  refine ⟨root, ?_, fun ms same => ?_⟩
  · refine (Propagator.addClause_cases wf root consistent ls).imp ?_ ?_
    · rintro ⟨idles, added⟩
      exact ⟨idles, by rw [Engine.addClause, Engine.propagating, added]; rfl⟩
    · rintro ⟨works, rest, ok, p, remains, adds, added⟩
      exact ⟨works, rest, ok, p, remains, adds,
        by rw [Engine.addClause, Engine.propagating, added]; rfl⟩
  · have mem (l : Literal Nat) : l ∈ ms.map Lit.toLiteral ↔ l ∈ ls.map Lit.toLiteral := by
      simp only [List.mem_map, same]
    have propagator := s.engine.toPropagator.addClause_congr mem
    simp only [Engine.addClause, Engine.propagating, propagator]

/-- Four variables, of which the last is true for good. -/
def settledOperations : List Operation :=
  [.newVar .unset true, .newVar .unset true, .newVar .unset true, .newVar .unset true,
    .addClause [4]]

/-- Of a clause with the negation of the last variable, and with the second one twice, two literals
remain. -/
theorem clause_added_as_set_settledOperations : ∃ answers s,
    (fresh {}).run settledOperations = .ok (answers, s) ∧ ∃ v₁ v₂ v₄ : Fin s.numVars,
      v₁.val = 0 ∧ v₂.val = 1 ∧ v₄.val = 3 ∧ ∃ p,
        s.engine.addClause ([⟨v₂, true⟩, ⟨v₄, false⟩, ⟨v₁, true⟩, ⟨v₂, true⟩].map Lit.toLiteral) =
            .ok (true, { s.engine with toPropagator := p }) ∧
          s.engine.Stores
            { first := ⟨v₁, true⟩, second := ⟨v₂, true⟩, rest := [], learnt := false } p := by
  have ran : Yields ((fresh {}).run settledOperations) fun out =>
      ∃ v₁ v₂ v₄ : Fin out.2.numVars, v₁.val = 0 ∧ v₂.val = 1 ∧ v₄.val = 3 ∧
        out.2.consistent = true ∧ out.2.engine.fixed = [⟨v₄, true⟩] := by
    decide +kernel
  obtain ⟨⟨answers, s⟩, run, v₁, v₂, v₄, first, second, fourth, consistent, fixed⟩ := ran
  have apart : v₁ ≠ v₄ ∧ v₂ ≠ v₄ := by
    constructor <;> rintro rfl <;> omega
  refine ⟨answers, s, run, v₁, v₂, v₄, first, second, fourth, ?_⟩
  obtain ⟨-, ⟨idles, -⟩ | ⟨-, rest, ok, p, remains, adds, added⟩, -⟩ :=
    clause_added_as_set run consistent [⟨v₂, true⟩, ⟨v₄, false⟩, ⟨v₁, true⟩, ⟨v₂, true⟩]
  · simp [Propagator.Idles, fixed, Literal.neg, apart, apart.1.symm, apart.2.symm] at idles
  · have two : rest = [⟨v₁, true⟩, ⟨v₂, true⟩] := by
      refine remains.eq_of_mem_iff (by simp [Lit.toLiteral, Literal.code, first, second]) ?_
      rintro ⟨v, positive⟩
      rw [fixed]
      cases positive with
      | true =>
        simp [Literal.neg]
        tauto
      | false => simp [Literal.neg]
    subst two
    cases adds with
    | clause stores => exact ⟨p, added, stores⟩

end Session

end IncrementalSat
