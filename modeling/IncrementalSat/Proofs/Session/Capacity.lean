import IncrementalSat.Proofs.Session.Effect
import IncrementalSat.Proofs.Session.Soundness

/-!
# Runs without faults

The number of variables is all that can stop a run: as long as there are no more of them than signed
literals can name, every operation of a run on a new session has an answer, whatever the
configuration, the literals and the flags are. No index leads nowhere, no count drops below zero, and
every structural assumption of the engine holds where it is relied on.
-/
namespace IncrementalSat

namespace Operation

/-- The largest number of variables at any time while operations are carried out on a session with
`k` variables. -/
def mostVars (k : Nat) : List Operation → Nat
  | [] => k
  | op :: ops => max k (mostVars (op.numVarsAfter k) ops)

theorem le_mostVars (k : Nat) (ops : List Operation) : k ≤ mostVars k ops := by
  cases ops with
  | nil => exact Nat.le_refl k
  | cons op ops => exact Nat.le_max_left ..

end Operation

namespace Session

variable {config : Config} {h : History} {s s' : Session} {op : Operation} {answer : Answer}
  {ops : List Operation} {answers : List Answer}

/-- A run succeeds on a session that came about without a fault, if there is room for its
variables. -/
theorem run_of_room (inv : Invariant h s) (room : Operation.mostVars s.numVars ops ≤ maxVars) :
    Yields (s.run ops) fun (answers, _) => answers.length = ops.length := by
  induction ops generalizing h s with
  | nil => exact Yields.ok rfl
  | cons op ops ih =>
    have later : Operation.mostVars (op.numVarsAfter s.numVars) ops ≤ maxVars :=
      Nat.le_trans (Nat.le_max_right ..) room
    have fits := Nat.le_trans (Operation.le_mostVars (op.numVarsAfter s.numVars) ops) later
    unfold run
    rcases perform_spec inv op with ⟨-, full⟩ | ⟨⟨answer, s'⟩, performed, result⟩
    · omega
    · rw [performed]
      rw [← numVars_of_perform performed] at later
      refine (ih result.invariant later).bind ?_
      rintro ⟨answers, s''⟩ length
      exact Yields.pure (congrArg (· + 1) length)

/-- A run on a new session that needs no more variables than signed literals can name succeeds, and
has an answer for each of its operations. -/
theorem run_succeeds (config : Config) (ops : List Operation)
    (room : Operation.mostVars 0 ops ≤ maxVars) :
    ∃ answers s, (fresh config).run ops = .ok (answers, s) ∧ answers.length = ops.length := by
  obtain ⟨⟨answers, s⟩, ran, length⟩ := run_of_room (Invariant.fresh config) room
  exact ⟨answers, s, ran, length⟩

theorem run_succeeds_sampleOperations : Operation.mostVars 0 sampleOperations ≤ maxVars ∧
    ∃ answers s, (fresh {}).run sampleOperations = .ok (answers, s) ∧ answers.length = 7 := by
  have room : Operation.mostVars 0 sampleOperations ≤ maxVars := by decide
  exact ⟨room, run_succeeds {} sampleOperations room⟩

end Session

end IncrementalSat
