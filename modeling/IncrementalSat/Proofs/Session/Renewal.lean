import IncrementalSat.Proofs.Session.Effect

/-!
# Operations that renew a session

A new variable, an accepted clause, a solve and a reset decide anew whether a model can be read, and
nothing else does. If the model is withdrawn from a session, this shows only in the operations that
read the model, and only until the next operation that renews the session.
-/
namespace IncrementalSat

namespace Operation

/-- The operation decides anew whether a model can be read. A solve does so even if it is rejected, a
clause only if it is accepted. -/
def renews : Operation → Answer → Bool
  | .newVar _ _, _ => true
  | .reset, _ => true
  | .addClause _, .flag _ => true
  | op, _ => op.assumptions?.isSome

/-- The operation reads the model. -/
def readsModel : Operation → Bool
  | .model => true
  | .modelValue _ => true
  | .value _ => true
  | _ => false

/-- The answers there are if no model can be read before the first operation that renews the
session. -/
def masked : List Operation → List Answer → List Answer
  | op :: ops, answer :: answers =>
    if op.renews answer then answer :: answers
    else (if op.readsModel then .rejected (.invalidState .noModel) else answer) :: masked ops answers
  | _, _ => []

/-- Some operation renews the session. -/
def renewed (ops : List Operation) (answers : List Answer) : Bool :=
  (ops.zip answers).any fun x => x.1.renews x.2

variable {op : Operation} {answer : Answer}

theorem masked_cons_of_renews (renews : op.renews answer = true) (ops : List Operation)
    (answers : List Answer) : masked (op :: ops) (answer :: answers) = answer :: answers :=
  if_pos renews

theorem masked_cons_of_not_renews (renews : op.renews answer = false) (ops : List Operation)
    (answers : List Answer) : masked (op :: ops) (answer :: answers) =
      (if op.readsModel then .rejected (.invalidState .noModel) else answer) :: masked ops answers :=
  if_neg (by rw [renews]; exact Bool.false_ne_true)

theorem renewed_cons (op : Operation) (answer : Answer) (ops : List Operation)
    (answers : List Answer) :
    renewed (op :: ops) (answer :: answers) = (op.renews answer || renewed ops answers) := rfl

/-- Operations that neither allocate nor engage the engine renew a session only if they are solves. -/
theorem renews_of_quiet (stays : ∀ k, op.numVarsAfter k = k) (quiet : op.engages answer = false) :
    op.renews answer = op.assumptions?.isSome := by
  cases op with
  | newVar => cases stays 0
  | reset => cases stays 1
  | addClause =>
    cases answer with
    | flag => cases quiet
    | _ => rfl
  | _ => rfl

theorem renews_of_asked {as : List (Literal Nat)} (asked : op.assumptions? = some as) :
    op.renews answer = true := by
  cases op with
  | solve => rfl
  | solveAssuming => rfl
  | solveByStrategy => rfl
  | _ => cases asked

/-- A solve that is turned down does not find a model. -/
theorem not_found_of_quiet {as : List (Literal Nat)} (asked : op.assumptions? = some as)
    (quiet : op.engages answer = false) : answer ≠ .flag true := by
  rintro rfl
  cases op with
  | solve => cases quiet
  | solveAssuming => cases quiet
  | solveByStrategy => cases quiet
  | _ => cases asked

end Operation

namespace Session

variable {s s' : Session} {op : Operation} {answer : Answer}

/-- A model can be read after a solve that found one. Only the operations that renew a session make a
difference to this. -/
theorem modelReady_of_perform (performed : s.perform op = .ok (answer, s')) : s'.modelReady =
    if op.renews answer then op.assumptions?.isSome && answer = .flag true else s.modelReady := by
  cases effect_of_perform performed with
  | allocated => rfl
  | restarted => rfl
  | marked stays _ _ quiet =>
    rw [Operation.renews_of_quiet stays quiet]
    cases asked : op.assumptions? with
    | none => rfl
    | some as => simp [Operation.not_found_of_quiet asked quiet]
  | added => rfl
  | simplified => rfl
  | eliminated => rfl
  | @solved _ as asked _ sat =>
    rw [Operation.renews_of_asked asked, asked]
    cases sat with
    | true => rfl
    | false => rfl

/-! ## Withdrawing the model -/

/-- The session whose model cannot be read. -/
def withdraw (s : Session) : Session := { s with modelReady := false }

/-- Literals are read alike as long as there are as many variables. The case split is on what is
matched over, since the match that reads a literal depends on the session. -/
theorem literal_of_engine (s : Session) (e : Engine s.numVars) (config : Config)
    (solved ready : Bool) (l : Int32) :
    Session.literal ⟨s.numVars, e, config, solved, ready⟩ l = s.literal l := by
  unfold literal
  cases Literal.ofSigned l with
  | error => rfl
  | ok k =>
    dsimp only [bind, Except.bind]
    cases Lit.ofLiteral? s.numVars k with
    | none => rfl
    | some => rfl

theorem literal_withdraw (s : Session) (l : Int32) : s.withdraw.literal l = s.literal l :=
  s.literal_of_engine s.engine s.config s.solvedByStrategy false l

theorem usableLiterals_withdraw (s : Session) (lits : List Int32) :
    s.withdraw.usableLiterals lits = s.usableLiterals lits := by
  induction lits with
  | nil => rfl
  | cons l ls ih =>
    unfold usableLiterals usableLiteral
    rw [literal_withdraw, ih]
    rfl

theorem newVar_withdraw (s : Session) (polarity : Truth) (decision : Bool) :
    s.withdraw.newVar polarity decision = s.newVar polarity decision := rfl

theorem addClause_withdraw (s : Session) (lits : List Int32) : s.withdraw.addClause lits =
    (s.addClause lits).map fun (answer, s') => (answer, s'.withdraw) := by
  unfold addClause
  rw [usableLiterals_withdraw]
  cases s.usableLiterals lits with
  | error => rfl
  | ok ms =>
    dsimp only [withdraw]
    cases s.engine.addClause (ms.map Lit.toLiteral) with
    | error => rfl
    | ok => rfl

theorem solve_withdraw (s : Session) (simplify turnOff : Bool) :
    s.withdraw.solve simplify turnOff = s.solve simplify turnOff := rfl

theorem solveAssuming_withdraw (s : Session) (assumptions : List Int32) (simplify turnOff : Bool) :
    s.withdraw.solveAssuming assumptions simplify turnOff =
      s.solveAssuming assumptions simplify turnOff := by
  unfold solveAssuming
  rw [usableLiterals_withdraw]
  cases s.usableLiterals assumptions with
  | error => rfl
  | ok ms => rfl

theorem solveByStrategy_withdraw (s : Session) (assumptions : List Int32) :
    s.withdraw.solveByStrategy assumptions = s.solveByStrategy assumptions := by
  change s.withdraw.solveAssuming assumptions _ _ >>= _ = _
  rw [solveAssuming_withdraw]
  rfl

theorem simplify_withdraw (s : Session) :
    s.withdraw.simplify = s.simplify.map fun (ok, s') => (ok, s'.withdraw) := by
  unfold simplify
  dsimp only [withdraw]
  cases s.engine.simplify with
  | error => rfl
  | ok => rfl

theorem eliminate_withdraw (s : Session) (turnOff : Bool) :
    s.withdraw.eliminate turnOff = (s.eliminate turnOff).map fun (ok, s') => (ok, s'.withdraw) := by
  unfold eliminate
  dsimp only [withdraw]
  cases s.engine.eliminate turnOff with
  | error => rfl
  | ok => rfl

/-- What an operation comes to if the model has been withdrawn before. -/
def withdrawn (op : Operation) (out : Answer × Session) : Answer × Session :=
  (if op.readsModel then .rejected (.invalidState .noModel) else out.1,
    if op.renews out.1 then out.2 else out.2.withdraw)

/-- Setting something of a variable does not depend on the model. -/
theorem update_withdraw (s : Session) (l : Int32) (f : Lit s.numVars → Session)
    (quiet : ∀ answer, op.renews answer = false) (unread : op.readsModel = false) :
    s.withdraw.update (s.literal l >>= fun m => pure (f m).withdraw) =
      withdrawn op (s.update (s.literal l >>= fun m => pure (f m))) := by
  unfold withdrawn
  rw [unread, quiet]
  cases s.literal l with
  | error => rfl
  | ok => rfl

/-- An operation makes the same of a session whether or not its model was withdrawn before, apart
from the model, which stays withdrawn unless the operation renews the session. -/
theorem perform_withdraw (s : Session) (op : Operation) :
    s.withdraw.perform op = (s.perform op).map (withdrawn op) := by
  cases op with
  | newVar polarity decision =>
    change s.withdraw.newVar polarity decision >>= _ = (s.newVar polarity decision >>= _).map _
    rw [newVar_withdraw]
    cases s.newVar polarity decision with
    | error => rfl
    | ok => rfl
  | setPolarity l polarity =>
    change Except.ok (s.withdraw.update (s.withdraw.literal l >>= _)) = _
    rw [literal_withdraw]
    exact congrArg Except.ok (update_withdraw s l
      (fun m => { s with engine := s.engine.setPolarity m.var polarity }) (fun _ => rfl) rfl)
  | setDecision l decision =>
    change Except.ok (s.withdraw.update (s.withdraw.literal l >>= _)) = _
    rw [literal_withdraw]
    exact congrArg Except.ok (update_withdraw s l
      (fun m => { s with engine := s.engine.setDecision m.var decision }) (fun _ => rfl) rfl)
  | setFrozen l frozen =>
    change Except.ok (s.withdraw.update (s.withdraw.literal l >>= _)) = _
    rw [literal_withdraw]
    exact congrArg Except.ok (update_withdraw s l
      (fun m => { s with engine := s.engine.setFrozen m.var frozen }) (fun _ => rfl) rfl)
  | isFrozen l =>
    change Except.ok (Answer.ofExcept .flag (s.withdraw.literal l >>= _), _) = _
    rw [literal_withdraw]
    rfl
  | isEliminated l =>
    change Except.ok (Answer.ofExcept .flag (s.withdraw.literal l >>= _), _) = _
    rw [literal_withdraw]
    rfl
  | addClause lits =>
    change s.withdraw.addClause lits >>= _ = (s.addClause lits >>= _).map _
    rw [addClause_withdraw]
    unfold addClause
    cases s.usableLiterals lits with
    | error => rfl
    | ok ms =>
      dsimp only
      cases s.engine.addClause (ms.map Lit.toLiteral) with
      | error => rfl
      | ok => rfl
  | solve simplify turnOff =>
    change s.withdraw.solve simplify turnOff >>= _ = (s.solve simplify turnOff >>= _).map _
    rw [solve_withdraw]
    cases s.solve simplify turnOff with
    | error => rfl
    | ok => rfl
  | solveAssuming as simplify turnOff =>
    change s.withdraw.solveAssuming as simplify turnOff >>= _ =
      (s.solveAssuming as simplify turnOff >>= _).map _
    rw [solveAssuming_withdraw]
    cases s.solveAssuming as simplify turnOff with
    | error => rfl
    | ok => rfl
  | solveByStrategy as =>
    change s.withdraw.solveByStrategy as >>= _ = (s.solveByStrategy as >>= _).map _
    rw [solveByStrategy_withdraw]
    cases s.solveByStrategy as with
    | error => rfl
    | ok => rfl
  | simplify =>
    change s.withdraw.simplify >>= _ = (s.simplify >>= _).map _
    rw [simplify_withdraw]
    cases s.simplify with
    | error => rfl
    | ok => rfl
  | eliminate turnOff =>
    change s.withdraw.eliminate turnOff >>= _ = (s.eliminate turnOff >>= _).map _
    rw [eliminate_withdraw]
    cases s.eliminate turnOff with
    | error => rfl
    | ok => rfl
  | _ => rfl

/-- The same for operations one after the other. Once one of them has renewed the session, nothing is
left of the difference. -/
theorem run_withdraw (s : Session) (ops : List Operation) :
    s.withdraw.run ops = (s.run ops).map fun (answers, s') =>
      (Operation.masked ops answers,
        if Operation.renewed ops answers then s' else s'.withdraw) := by
  induction ops generalizing s with
  | nil => rfl
  | cons op ops ih =>
    unfold run
    rw [perform_withdraw]
    cases s.perform op with
    | error => rfl
    | ok out =>
      obtain ⟨answer, s₁⟩ := out
      dsimp only [Except.map, bind, Except.bind, withdrawn]
      cases renews : op.renews answer with
      | true =>
        have unread : op.readsModel = false := by
          cases op <;> first | rfl | cases renews
        rw [if_pos rfl, unread]
        cases s₁.run ops with
        | error => rfl
        | ok out =>
          dsimp only [pure, Except.pure]
          rw [Operation.masked_cons_of_renews renews, Operation.renewed_cons, renews]
          rfl
      | false =>
        rw [if_neg Bool.false_ne_true, ih]
        cases s₁.run ops with
        | error => rfl
        | ok out =>
          dsimp only [Except.map, pure, Except.pure]
          rw [Operation.masked_cons_of_not_renews renews, Operation.renewed_cons, renews]
          rfl

end Session

end IncrementalSat
