import IncrementalSat.Proofs.SlotMap.Basic
import IncrementalSat.Service

/-!
# Calls on a session of its own

A call is an operation on a session, together with the pointers that are looked at before and after
it. So a call can be answered by a session without any handle. A service answers a call on a live
handle as its session does, and puts the session back; a call on any other handle it rejects.
-/
namespace IncrementalSat

/-- The array has a length, and there is nothing to read it from. -/
def LitArray.isMissing : LitArray → Bool
  | .null (_ + 1) => true
  | _ => false

theorem LitArray.isMissing_of_map {lits : LitArray} {f : List Int32 → Operation}
    {request : Except Error Operation} (read : lits.read.map f = request) :
    (lits.isMissing = true ∧ request = .error .nullPointer) ∨
      (lits.isMissing = false ∧ ∃ op, request = .ok op) := by
  subst read
  cases lits with
  | null length =>
    cases length with
    | zero => exact .inr ⟨rfl, _, rfl⟩
    | succ => exact .inl ⟨rfl, rfl⟩
  | items lits => exact .inr ⟨rfl, _, rfl⟩

namespace Call

/-- The operation that a call carries out on a session, or the error of a null pointer that is
noticed before. Destroying a session is not up to the session. -/
def operation? : Call → Option (Except Error Operation)
  | .destroy => none
  | .plain op => some (.ok op)
  | .addClause lits => some (lits.read.map .addClause)
  | .solveAssuming assumptions simplify turnOff =>
    some (assumptions.read.map (.solveAssuming · simplify turnOff))
  | .solveByStrategy assumptions => some (assumptions.read.map .solveByStrategy)
  | .model _ => some (.ok .model)
  | .writeDimacs path =>
    some (match path with
      | .null => .error .nullPointer
      | _ => .ok .dimacs)

/-- What the caller gets to see of the answer to the operation. -/
def reply : Call → Answer → Reply
  | .model out, answer => Service.copyModel out answer
  | .writeDimacs (.refused reason), .text _ => ⟨(Error.io reason).status, none, none⟩
  | .writeDimacs _, .text t => ⟨1, none, some t⟩
  | _, answer => ⟨answer.toInt, none, none⟩

/-- The call passes a pointer that must not be null, and it is. -/
def passesNull : Call → Bool
  | .addClause lits => lits.isMissing
  | .solveAssuming assumptions _ _ => assumptions.isMissing
  | .solveByStrategy assumptions => assumptions.isMissing
  | .writeDimacs path => path = .null
  | _ => false

/-- Memory of the caller that a call may write to. -/
def buffer? : Call → Option Buffer
  | .model out => some out
  | _ => none

/-- The reply to a call on a handle that leads nowhere. -/
def rejection (c : Call) : Reply :=
  ⟨if c.passesNull then -3 else -1, c.buffer?, none⟩

variable {c : Call} {e : Error} {op : Operation}

theorem eq_destroy_of_none (asked : c.operation? = none) : c = .destroy := by
  cases c with
  | destroy => rfl
  | _ => cases asked

theorem eq_plain_of_newVar {polarity : Truth} {decision : Bool}
    (asked : c.operation? = some (.ok (.newVar polarity decision))) :
    c = .plain (.newVar polarity decision) := by
  have read : ∀ (lits : LitArray) (f : List Int32 → Operation),
      (∀ lits, f lits ≠ .newVar polarity decision) →
        lits.read.map f ≠ .ok (.newVar polarity decision) := by
    intro lits f other mapped
    cases result : lits.read with
    | error => cases result ▸ mapped
    | ok items =>
      rw [result] at mapped
      exact other items (Except.ok.inj mapped)
  cases c with
  | destroy => cases asked
  | plain => cases asked; rfl
  | addClause => exact absurd (Option.some.inj asked) (read _ _ (by nofun))
  | solveAssuming => exact absurd (Option.some.inj asked) (read _ _ (by nofun))
  | solveByStrategy => exact absurd (Option.some.inj asked) (read _ _ (by nofun))
  | model => cases asked
  | writeDimacs path => cases path <;> cases asked

/-- The pointers decide whether a call comes to an operation. -/
theorem passesNull_of_operation {request : Except Error Operation}
    (asked : c.operation? = some request) :
    (c.passesNull = true ∧ c.buffer? = none ∧ request = .error .nullPointer) ∨
      (c.passesNull = false ∧ ∃ op, request = .ok op) := by
  cases c with
  | destroy => cases asked
  | plain op =>
    cases asked
    exact .inr ⟨rfl, op, rfl⟩
  | addClause lits =>
    exact (LitArray.isMissing_of_map (Option.some.inj asked)).imp_left fun ⟨missing, failed⟩ =>
      ⟨missing, rfl, failed⟩
  | solveAssuming assumptions =>
    exact (LitArray.isMissing_of_map (Option.some.inj asked)).imp_left fun ⟨missing, failed⟩ =>
      ⟨missing, rfl, failed⟩
  | solveByStrategy assumptions =>
    exact (LitArray.isMissing_of_map (Option.some.inj asked)).imp_left fun ⟨missing, failed⟩ =>
      ⟨missing, rfl, failed⟩
  | model out =>
    cases asked
    exact .inr ⟨rfl, .model, rfl⟩
  | writeDimacs path =>
    cases path with
    | null =>
      cases asked
      exact .inl ⟨rfl, rfl, rfl⟩
    | _ =>
      cases asked
      exact .inr ⟨rfl, .dimacs, rfl⟩

theorem rejection_of_error (asked : c.operation? = some (.error e)) :
    c.rejection = ⟨e.status, none, none⟩ := by
  rcases passesNull_of_operation asked with ⟨null, untouched, failed⟩ | ⟨-, op, carried⟩
  · cases failed
    unfold rejection
    rw [null, untouched]
    rfl
  · cases carried

theorem rejection_of_operation (asked : c.operation? = some (.ok op)) (h : Handle) :
    c.rejection = c.reply (.rejected (.invalidHandle h)) := by
  rcases passesNull_of_operation asked with ⟨-, -, failed⟩ | ⟨given, -⟩
  · cases failed
  · unfold rejection
    rw [given]
    cases c with
    | writeDimacs path => cases path <;> rfl
    | _ => rfl

end Call

namespace Session

/-- Answers a call without a service. -/
def answer (s : Session) (c : Call) : Checked (Reply × Session) :=
  match c.operation? with
  | none => .ok (⟨1, none, none⟩, s)
  | some (.error e) => .ok (⟨e.status, none, none⟩, s)
  | some (.ok op) => do
    let (answer, s) ← s.perform op
    pure (c.reply answer, s)

/-- Answers calls one after the other. -/
def answerAll (s : Session) : List Call → Checked (List Reply × Session)
  | [] => .ok ([], s)
  | c :: cs => do
    let (reply, s) ← s.answer c
    let (replies, s) ← s.answerAll cs
    pure (reply :: replies, s)

end Session

namespace Service

variable {m m' : Service} {h k : Handle} {s s' : Session} {c : Call} {op : Operation} {reply : Reply}

theorem perform_of_live (found : m.get? h = some s) (op : Operation) :
    m.perform h op = (s.perform op).map fun (answer, s) => (answer, m.set h s) := by
  unfold perform
  rw [SlotMap.get_of_get? found]
  dsimp only
  cases s.perform op with
  | error => rfl
  | ok => rfl

theorem perform_of_absent (absent : m.get? h = none) (op : Operation) :
    m.perform h op = .ok (.rejected (.invalidHandle h), m) := by
  unfold perform
  rw [SlotMap.get_of_none absent]

/-- Carries out an operation for a caller, if nothing is wrong with the pointers. -/
def carryOut (m : Service) (h : Handle) (reply : Answer → Reply) :
    Except Error Operation → Checked (Reply × Service)
  | .error e => .ok (⟨e.status, none, none⟩, m)
  | .ok op => (m.perform h op).map fun (answer, m) => (reply answer, m)

theorem carryOut_ok (reply : Answer → Reply) (op : Operation) :
    m.carryOut h reply (.ok op) =
      m.perform h op >>= fun (answer, m) => pure (reply answer, m) := by
  unfold carryOut
  dsimp only
  cases m.perform h op with
  | error => rfl
  | ok => rfl

theorem performOn_eq (lits : LitArray) (op : List Int32 → Operation) :
    m.performOn h lits op = m.carryOut h (fun answer => ⟨answer.toInt, none, none⟩) (lits.read.map op) := by
  unfold performOn
  cases lits.read with
  | error => rfl
  | ok lits => exact (carryOut_ok (fun answer => ⟨answer.toInt, none, none⟩) (op lits)).symm

/-- An export only reads the session, so it is the operation to print it. -/
theorem call_writeDimacs {path : Path} (given : path ≠ .null) : m.call h (.writeDimacs path) =
    m.carryOut h (Call.writeDimacs path).reply (.ok .dimacs) := by
  unfold carryOut
  dsimp only
  cases found : m.get? h with
  | none =>
    rw [perform_of_absent found]
    unfold call exportDimacs
    rw [SlotMap.get_of_none found]
    cases path with
    | null => exact absurd rfl given
    | writable => rfl
    | refused => rfl
  | some s =>
    rw [perform_of_live found]
    unfold call exportDimacs
    rw [SlotMap.get_of_get? found]
    simp only [Session.perform, Except.map, SlotMap.set_self found]
    cases path with
    | null => exact absurd rfl given
    | writable => rfl
    | refused => rfl

/-- A call comes to its operation. Its pointers are looked at before the handle. -/
theorem call_eq {request : Except Error Operation} (asked : c.operation? = some request) :
    m.call h c = m.carryOut h c.reply request := by
  cases c with
  | destroy => cases asked
  | plain op =>
    cases asked
    exact (carryOut_ok (Call.plain op).reply op).symm
  | addClause lits =>
    cases asked
    exact performOn_eq lits _
  | solveAssuming assumptions =>
    cases asked
    exact performOn_eq assumptions _
  | solveByStrategy assumptions =>
    cases asked
    exact performOn_eq assumptions _
  | model out =>
    cases asked
    exact (carryOut_ok (Call.model out).reply .model).symm
  | writeDimacs path =>
    cases path with
    | null =>
      cases asked
      rfl
    | writable =>
      cases asked
      exact call_writeDimacs (by nofun)
    | refused =>
      cases asked
      exact call_writeDimacs (by nofun)

/-- A call on a live handle is answered by its session. -/
theorem call_of_live (found : m.get? h = some s) (stays : c ≠ .destroy) :
    m.call h c = (s.answer c).map fun (reply, s) => (reply, m.set h s) := by
  cases asked : c.operation? with
  | none => exact absurd (Call.eq_destroy_of_none asked) stays
  | some request =>
    rw [call_eq asked]
    unfold Session.answer carryOut
    rw [asked]
    cases request with
    | error e => simp [Except.map, SlotMap.set_self found]
    | ok op =>
      dsimp only
      rw [perform_of_live found]
      cases s.perform op with
      | error => rfl
      | ok => rfl

/-- A call on any other handle is rejected and changes nothing. -/
theorem call_of_absent (absent : m.get? h = none) (c : Call) : m.call h c = .ok (c.rejection, m) := by
  cases asked : c.operation? with
  | none =>
    rw [Call.eq_destroy_of_none asked]
    unfold call
    rw [SlotMap.remove_of_none absent]
    rfl
  | some request =>
    rw [call_eq asked]
    unfold carryOut
    cases request with
    | error e => rw [Call.rejection_of_error asked]
    | ok op =>
      dsimp only
      rw [perform_of_absent absent, Call.rejection_of_operation asked h]
      rfl

end Service

end IncrementalSat
