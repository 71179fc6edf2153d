import IncrementalSat.Proofs.Session.Buffered
import IncrementalSat.Proofs.Session.Finality
import IncrementalSat.Proofs.Session.Readability

/-!
# Rejected calls leave no trace

A clause or a solve is rejected exactly if one of its literals is none, or names a variable that was
not allocated or was eliminated; the first such literal decides the error. A rejected clause makes no
difference to anything that is done afterwards. A rejected solve makes one: the model is withdrawn.
-/
namespace IncrementalSat

/-- The literals that an operation checks before it sets the engine to work. -/
def Operation.checked? : Operation → Option (List Int32)
  | .addClause lits => some lits
  | .solveAssuming assumptions _ _ => some assumptions
  | .solveByStrategy assumptions => some assumptions
  | _ => none

namespace Session

variable {config : Config} {h : History} {s s' : Session} {op : Operation} {ops : List Operation}
  {answers : List Answer} {lits : List Int32} {l : Int32} {e : Error}

/-! ## Offending literals -/

/-- What is wrong with a literal, and the error that says so. -/
inductive Offends (s : Session) (l : Int32) : Error → Prop
  | invalid (none : l = 0 ∨ l = Int32.minValue) : Offends s l (.invalidLiteral l)
  | unallocated (valid : ¬ (l = 0 ∨ l = Int32.minValue)) (beyond : s.numVars < l.toInt.natAbs) :
      Offends s l (.invalidArgument l s.numVars)
  | eliminated (valid : ¬ (l = 0 ∨ l = Int32.minValue)) {v : Fin s.numVars}
      (named : l.toInt.natAbs = v + 1) (gone : s.engine.isEliminated v = true) :
      Offends s l (.invalidState .eliminatedVariable)

/-- The error is that of the first literal with which anything is wrong. -/
def FirstOffends (s : Session) (lits : List Int32) (e : Error) : Prop :=
  ∃ before l after, lits = before ++ l :: after ∧ (∀ k ∈ before, ∀ e', ¬ s.Offends k e') ∧
    s.Offends l e

/-- The checks of a literal in the order in which they are made. -/
theorem usableLiteral_eq (s : Session) (l : Int32) : s.usableLiteral l =
    if l = 0 ∨ l = Int32.minValue then .error (.invalidLiteral l)
    else if allocated : l.toInt.natAbs - 1 < s.numVars then
      if s.engine.isEliminated ⟨l.toInt.natAbs - 1, allocated⟩ then
        .error (.invalidState .eliminatedVariable)
      else .ok ⟨⟨l.toInt.natAbs - 1, allocated⟩, decide (0 < l)⟩
    else .error (.invalidArgument l s.numVars) := by
  unfold usableLiteral literal Literal.ofSigned
  by_cases valid : l = 0 ∨ l = Int32.minValue
  · rw [if_pos valid, if_pos valid]
    rfl
  · rw [if_neg valid, if_neg valid]
    dsimp only [bind, Except.bind]
    unfold Lit.ofLiteral?
    dsimp only
    by_cases allocated : l.toInt.natAbs - 1 < s.numVars
    · rw [dif_pos allocated, dif_pos allocated]
    · rw [dif_neg allocated, dif_neg allocated]

theorem natAbs_pos_of_valid (valid : ¬ (l = 0 ∨ l = Int32.minValue)) : 0 < l.toInt.natAbs := by
  have nonzero : l.toInt ≠ 0 := fun zero => valid (.inl (Int32.toInt_inj.1 zero))
  omega

theorem usableLiteral_eq_error_iff : s.usableLiteral l = .error e ↔ s.Offends l e := by
  rw [usableLiteral_eq]
  constructor
  · intro refused
    split at refused
    · next none =>
      cases refused
      exact .invalid none
    · next valid =>
      have positive := natAbs_pos_of_valid valid
      split at refused
      · next allocated =>
        split at refused
        · next gone =>
          cases refused
          refine .eliminated valid ?_ gone
          dsimp only
          omega
        · cases refused
      · next beyond =>
        cases refused
        refine .unallocated valid ?_
        omega
  · intro offends
    cases offends with
    | invalid none => rw [if_pos none]
    | unallocated valid beyond =>
      rw [if_neg valid, dif_neg (by omega)]
    | @eliminated valid v named gone =>
      have same : l.toInt.natAbs - 1 = v := by omega
      have found : (⟨l.toInt.natAbs - 1, same ▸ v.isLt⟩ : Fin s.numVars) = v := Fin.ext same
      rw [if_neg valid, dif_pos (same ▸ v.isLt), found, if_pos gone]

/-- Nothing is wrong with a literal that is accepted. -/
theorem not_offends_of_ok {m : Lit s.numVars} (read : s.usableLiteral l = .ok m) (e : Error) :
    ¬ s.Offends l e := by
  intro offends
  rw [usableLiteral_eq_error_iff.2 offends] at read
  cases read

/-- Literals are rejected with the error of the first offending one, and only if there is one. -/
theorem usableLiterals_eq_error_iff : s.usableLiterals lits = .error e ↔ s.FirstOffends lits e := by
  induction lits with
  | nil =>
    constructor
    · nofun
    · rintro ⟨before, k, after, split, -⟩
      cases before <;> cases split
  | cons l ls ih =>
    unfold usableLiterals
    cases first : s.usableLiteral l with
    | error e₁ =>
      have offends := usableLiteral_eq_error_iff.1 first
      constructor
      · intro refused
        cases refused
        exact ⟨[], l, ls, rfl, by simp, offends⟩
      · rintro ⟨before, k, after, split, fine, offends'⟩
        cases before with
        | nil =>
          cases split
          cases first.symm.trans (usableLiteral_eq_error_iff.2 offends')
          rfl
        | cons k₀ before =>
          cases split
          exact absurd offends (fine l List.mem_cons_self e₁)
    | ok m =>
      have rest : (do let ls ← s.usableLiterals ls; pure (m :: ls)) = Except.error e ↔
          s.usableLiterals ls = .error e := by
        cases s.usableLiterals ls <;> simp [bind, Except.bind, pure, Except.pure]
      refine rest.trans (ih.trans ?_)
      constructor
      · rintro ⟨before, k, after, rfl, fine, offends⟩
        exact ⟨l :: before, k, after, rfl,
          List.forall_mem_cons.2 ⟨not_offends_of_ok first, fine⟩, offends⟩
      · rintro ⟨before, k, after, split, fine, offends⟩
        cases before with
        | nil =>
          cases split
          exact absurd offends (not_offends_of_ok first e)
        | cons k₀ before =>
          cases split
          exact ⟨before, k, after, rfl, (List.forall_mem_cons.1 fine).2, offends⟩

/-- Nothing is wrong with literals that are accepted. -/
theorem not_offends_of_usableLiterals {ms : List (Lit s.numVars)}
    (read : s.usableLiterals lits = .ok ms) :
    ∀ l ∈ lits, ∀ e, ¬ s.Offends l e := by
  induction lits generalizing ms with
  | nil => nofun
  | cons l ls ih =>
    obtain ⟨m, first, rest⟩ := bind_eq_ok_iff.1 read
    obtain ⟨ms, rest, -⟩ := bind_eq_ok_iff.1 rest
    exact List.forall_mem_cons.2 ⟨not_offends_of_ok first, ih rest⟩

/-! ## Rejected operations -/

/-- An operation whose literals are refused is rejected. All that it does is to withdraw the model if
it is a solve. -/
theorem perform_of_error (checks : op.checked? = some lits)
    (refused : s.usableLiterals lits = .error e) :
    s.perform op = .ok (.rejected e, if op.assumptions?.isSome then s.withdraw else s) := by
  cases op with
  | addClause =>
    cases checks
    change s.addClause lits >>= _ = _
    unfold addClause
    rw [refused]
    rfl
  | solveAssuming =>
    cases checks
    change s.solveAssuming lits _ _ >>= _ = _
    unfold solveAssuming
    rw [refused]
    rfl
  | solveByStrategy =>
    cases checks
    change (s.solveAssuming lits _ _ >>= _) >>= _ = _
    unfold solveAssuming
    rw [refused]
    rfl
  | _ => cases checks

/-- A solve whose literals are accepted says whether there is a model. -/
theorem result_of_solveAssuming {ms : List (Lit s.numVars)} {simplify turnOff : Bool}
    {result : Except Error Bool} (read : s.usableLiterals lits = .ok ms)
    (solved : s.solveAssuming lits simplify turnOff = .ok (result, s')) : ∃ b, result = .ok b := by
  unfold solveAssuming at solved
  rw [read] at solved
  obtain ⟨⟨sat, e⟩, -, result⟩ := bind_eq_ok_iff.1 solved
  cases result
  exact ⟨sat, rfl⟩

/-- An operation whose literals are accepted is not rejected. -/
theorem flag_of_perform {answer : Answer} {ms : List (Lit s.numVars)}
    (checks : op.checked? = some lits) (read : s.usableLiterals lits = .ok ms)
    (performed : s.perform op = .ok (answer, s')) : ∃ b, answer = .flag b := by
  cases op with
  | addClause =>
    cases checks
    obtain ⟨⟨result, s₁⟩, added, out⟩ := bind_eq_ok_iff.1 performed
    cases out
    unfold addClause at added
    rw [read] at added
    obtain ⟨⟨ok, e⟩, -, out⟩ := bind_eq_ok_iff.1 added
    cases out
    exact ⟨ok, rfl⟩
  | solveAssuming =>
    cases checks
    obtain ⟨⟨result, s₁⟩, solved, out⟩ := bind_eq_ok_iff.1 performed
    cases out
    obtain ⟨sat, rfl⟩ := result_of_solveAssuming read solved
    exact ⟨sat, rfl⟩
  | solveByStrategy =>
    cases checks
    obtain ⟨⟨result, s₁⟩, solved, out⟩ := bind_eq_ok_iff.1 performed
    obtain ⟨⟨result, s₂⟩, inner, rest⟩ := bind_eq_ok_iff.1 solved
    obtain ⟨sat, rfl⟩ := result_of_solveAssuming read inner
    cases rest
    cases out
    exact ⟨sat, rfl⟩
  | _ => cases checks

/-- The strategy asks to eliminate and to turn elimination off as long as only the first solve by
strategy is to eliminate and none has been accepted. -/
theorem Switched.strategyFlags_of_first (switched : Switched config h s)
    (once : config.strategy = .once) (first : ¬ h.SolvedByStrategy) :
    s.strategyFlags = (true, true) := by
  have none : s.solvedByStrategy = false := by
    rw [← Bool.not_eq_true, switched.counted]
    exact first
  unfold strategyFlags
  rw [switched.same, once, none]
  rfl

/-- An operation that checks its literals is carried out, and nothing is wrong with any of them; or it
is rejected with the error of the first offending one. A rejected clause is as if it had not been
there: whatever is done afterwards has the same answers and leads to the same session, although the
buffer holds something else. After a rejected solve, the model cannot be read before the next
operation that renews the session, and nothing else is different; in particular the next solve by
strategy can still be the first. -/
theorem rejections_are_atomic (run : (fresh config).run ops = .ok (answers, s))
    (checks : op.checked? = some lits) (buffer : List (Literal Nat)) :
    ∃ answer s' buffer', s.perform op = .ok (answer, s') ∧
      BufferedSession.perform ⟨s, buffer⟩ op = .ok (answer, ⟨s', buffer'⟩) ∧
      ((∃ b, answer = .flag b ∧ ∀ l ∈ lits, ∀ e, ¬ s.Offends l e) ∨
        ∃ e, answer = .rejected e ∧ s.FirstOffends lits e ∧
          (op.assumptions? = none → s' = s ∧ ∀ more,
            BufferedSession.outcome ⟨s', buffer'⟩ more = BufferedSession.outcome ⟨s, buffer⟩ more) ∧
          (op.assumptions?.isSome = true → s'.Unreadable ∧ (∀ more,
            BufferedSession.outcome ⟨s', buffer'⟩ more =
              (BufferedSession.outcome ⟨s, buffer⟩ more).map fun (answers, t) =>
                (Operation.masked more answers,
                  if Operation.renewed more answers then t else t.withdraw)) ∧
            (config.strategy = .once → ¬ (History.after [] ops answers).SolvedByStrategy →
              s'.strategyFlags = (true, true)))) := by
  have inv := invariant_of_run run
  have switched := (Switched.fresh config).run (Invariant.fresh config) run
  have carried : ∃ answer s', s.perform op = .ok (answer, s') := by
    rcases perform_spec inv op with ⟨-, beyond⟩ | ⟨⟨answer, s'⟩, performed, -⟩
    · have stays : op.numVarsAfter s.numVars = s.numVars := by
        cases op <;> first | rfl | cases checks
      exact absurd (numVars_le_of_run_from run (Nat.zero_le _)) (Nat.not_le_of_lt (stays ▸ beyond))
    · exact ⟨answer, s', performed⟩
  obtain ⟨answer, s', performed⟩ := carried
  obtain ⟨buffer', buffered⟩ := BufferedSession.exists_perform performed buffer
  refine ⟨answer, s', buffer', performed, buffered, ?_⟩
  cases read : s.usableLiterals lits with
  | ok ms =>
    obtain ⟨b, rfl⟩ := flag_of_perform checks read performed
    exact .inl ⟨b, rfl, not_offends_of_usableLiterals read⟩
  | error e =>
    have rejected := perform_of_error checks read
    obtain ⟨rfl, left⟩ := Prod.mk.inj (Except.ok.inj (performed.symm.trans rejected))
    refine .inr ⟨e, rfl, usableLiterals_eq_error_iff.1 read, fun added => ?_, fun solves => ?_⟩
    · rw [added] at left
      refine ⟨left, fun more => ?_⟩
      rw [BufferedSession.outcome_eq, BufferedSession.outcome_eq, left]
      rfl
    · rw [if_pos solves] at left
      rw [left]
      refine ⟨unreadable_of_not_ready rfl, fun more => ?_, fun once first => ?_⟩
      · rw [BufferedSession.outcome_eq, BufferedSession.outcome_eq]
        exact run_withdraw s more
      · exact switched.strategyFlags_of_first once first

/-- The first solve by strategy is rejected for its second literal, whose variable is eliminated. The
model of the solve before cannot be read then, but the next solve by strategy still eliminates. -/
theorem rejections_are_atomic_sampleOperations : ∃ answers s s' buffer',
    (fresh {}).run sampleOperations = .ok (answers, s) ∧ s.model = .ok [false, true, false, true] ∧
      BufferedSession.perform ⟨s, []⟩ (.solveByStrategy [3, 1, 0]) =
        .ok (.rejected (.invalidState .eliminatedVariable), ⟨s', buffer'⟩) ∧
      s.FirstOffends [3, 1, 0] (.invalidState .eliminatedVariable) ∧ s'.Unreadable ∧
      s'.strategyFlags = (true, true) ∧
      ∃ t, BufferedSession.outcome ⟨s', buffer'⟩ [.value 3, .solve false false, .value 3] =
        .ok ([.rejected (.invalidState .noModel), .flag true, .flag true], t) := by
  have ran : Yields ((fresh {}).run sampleOperations) fun out =>
      out.2.model = .ok [false, true, false, true] ∧
        (∀ x ∈ History.after [] sampleOperations out.1, x.1.byStrategy = false) ∧
        Yields (out.2.perform (.solveByStrategy [3, 1, 0])) (fun out' =>
          out'.1 = .rejected (.invalidState .eliminatedVariable)) ∧
        Yields (out.2.run [.value 3, .solve false false, .value 3]) (fun out' =>
          out'.1 = [.flag true, .flag true, .flag true]) := by
    decide +kernel
  obtain ⟨⟨answers, s⟩, run, model, none, ⟨⟨answer, s'⟩, performed, rfl⟩, ⟨answers', t⟩, later,
    rfl⟩ := ran
  have checks : (Operation.solveByStrategy [3, 1, 0]).checked? = some [3, 1, 0] := rfl
  obtain ⟨answer, s'', buffer', same, buffered, outcome⟩ := rejections_are_atomic run checks []
  cases performed.symm.trans same
  rcases outcome with ⟨_, flag, -⟩ | ⟨e, rejected, offends, -, solves⟩
  · cases flag
  · cases rejected
    obtain ⟨unreadable, continues, flags⟩ := solves rfl
    refine ⟨answers, s, s', buffer', run, model, buffered, offends, unreadable, flags rfl ?_, t, ?_⟩
    · rintro ⟨as, sat, mem⟩
      cases none _ mem
    · rw [continues, BufferedSession.outcome_eq, later]
      rfl

end Session

end IncrementalSat
