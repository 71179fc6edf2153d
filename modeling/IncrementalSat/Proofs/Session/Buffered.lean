import IncrementalSat.Proofs.Session.Renewal
import IncrementalSat.Proofs.Signed
import IncrementalSat.Session.Buffered

/-!
# What is left in the buffer does not matter

Every call that reads the buffer has filled it before, so a session with a buffer answers as the
session alone, whatever the buffer held when the session was given to it.
-/
namespace IncrementalSat

namespace BufferedSession

variable {s : Session} {t : BufferedSession}

/-! ## Loading literals -/

theorem convert_eq (s : Session) (l : Int32) : convert s l = s.usableLiteral l := by
  unfold convert Session.usableLiteral Session.literal
  cases read : Literal.ofSigned l with
  | error e => rfl
  | ok k =>
    dsimp only [bind, Except.bind]
    rw [Literal.toSigned_of_ofSigned read]
    cases Lit.ofLiteral? s.numVars k with
    | none => rfl
    | some m => rfl

/-- The buffer takes all literals of a call that is accepted. The first one that is refused decides
the error of a call that is rejected, and those before it are in the buffer then. -/
theorem fill_spec (s : Session) (buffer : List (Literal Nat)) (lits : List Int32) :
    match s.usableLiterals lits with
    | .ok ms => fill s buffer lits = (.ok (), buffer ++ ms.map Lit.toLiteral)
    | .error e => ∃ converted, fill s buffer lits = (.error e, buffer ++ converted) := by
  induction lits generalizing buffer with
  | nil =>
    change fill s buffer [] = (.ok (), buffer ++ [])
    rw [List.append_nil]
    rfl
  | cons l ls ih =>
    unfold Session.usableLiterals fill
    rw [convert_eq]
    cases s.usableLiteral l with
    | error e => exact ⟨[], by rw [List.append_nil]⟩
    | ok m =>
      have rest := ih (buffer ++ [m.toLiteral])
      dsimp only [bind, Except.bind]
      cases read : s.usableLiterals ls with
      | error e =>
        rw [read] at rest
        obtain ⟨converted, stopped⟩ := rest
        exact ⟨m.toLiteral :: converted, by rw [stopped, List.append_assoc]; rfl⟩
      | ok ms =>
        rw [read] at rest
        change fill s (buffer ++ [m.toLiteral]) ls = _
        rw [rest, List.append_assoc]
        rfl

theorem load_of_ok {lits : List Int32} {ms : List (Lit t.session.numVars)}
    (read : t.session.usableLiterals lits = .ok ms) :
    t.load lits = (.ok (), { t with buffer := ms.map Lit.toLiteral }) := by
  have filled := fill_spec t.session [] lits
  rw [read] at filled
  unfold load
  rw [filled]
  rfl

theorem load_of_error {lits : List Int32} {e : Error}
    (read : t.session.usableLiterals lits = .error e) :
    ∃ buffer, t.load lits = (.error e, { t with buffer }) := by
  have filled := fill_spec t.session [] lits
  rw [read] at filled
  obtain ⟨converted, stopped⟩ := filled
  refine ⟨converted, ?_⟩
  unfold load
  rw [stopped]
  rfl

/-! ## Calls -/

/-- The answer together with the session, without the buffer. -/
def unbuffered {α : Type} (result : Checked (α × BufferedSession)) : Checked (α × Session) :=
  result.map fun (answer, t) => (answer, t.session)

/-- What is done with the answer of a call does not depend on the buffer. -/
theorem unbuffered_bind {α β : Type} {m : Checked (α × BufferedSession)} {m' : Checked (α × Session)}
    (same : unbuffered m = m') {f : α × BufferedSession → Checked (β × BufferedSession)}
    {f' : α × Session → Checked (β × Session)}
    (after : ∀ a t, unbuffered (f (a, t)) = f' (a, t.session)) :
    unbuffered (m >>= f) = m' >>= f' := by
  subst same
  cases m with
  | error => rfl
  | ok out => exact after out.1 out.2

theorem unbuffered_addClause (t : BufferedSession) (lits : List Int32) :
    unbuffered (t.addClause lits) = t.session.addClause lits := by
  unfold addClause Session.addClause
  cases read : t.session.usableLiterals lits with
  | error e =>
    obtain ⟨buffer, loaded⟩ := load_of_error read
    rw [loaded]
    rfl
  | ok ms =>
    rw [load_of_ok read]
    dsimp only
    cases t.session.engine.addClause (ms.map Lit.toLiteral) with
    | error => rfl
    | ok => rfl

theorem unbuffered_finishSolve (t : BufferedSession) (simplify turnOff : Bool) :
    unbuffered (t.finishSolve simplify turnOff) =
      t.session.engine.solve t.buffer simplify turnOff >>= fun (sat, engine) =>
        pure (sat, { t.session with engine, modelReady := sat }) := by
  unfold finishSolve
  cases t.session.engine.solve t.buffer simplify turnOff with
  | error => rfl
  | ok => rfl

theorem unbuffered_solveAssuming (t : BufferedSession) (assumptions : List Int32)
    (simplify turnOff : Bool) : unbuffered (t.solveAssuming assumptions simplify turnOff) =
      t.session.solveAssuming assumptions simplify turnOff := by
  unfold solveAssuming Session.solveAssuming
  have same : t.withdraw.session.usableLiterals assumptions = t.session.usableLiterals assumptions :=
    t.session.usableLiterals_withdraw assumptions
  cases read : t.session.usableLiterals assumptions with
  | error e =>
    obtain ⟨buffer, loaded⟩ := load_of_error (same.trans read)
    rw [loaded]
    rfl
  | ok ms =>
    rw [load_of_ok (same.trans read)]
    dsimp only
    unfold finishSolve
    dsimp only [withdraw]
    cases t.session.engine.solve (ms.map Lit.toLiteral) simplify turnOff with
    | error => rfl
    | ok => rfl

theorem unbuffered_solveByStrategy (t : BufferedSession) (assumptions : List Int32) :
    unbuffered (t.solveByStrategy assumptions) = t.session.solveByStrategy assumptions := by
  unfold solveByStrategy Session.solveByStrategy
  refine unbuffered_bind (unbuffered_solveAssuming t assumptions _ _) ?_
  intro answer t'
  cases answer with
  | error => rfl
  | ok => rfl

/-- Every operation is answered as by the session alone, and leaves the same session. -/
theorem unbuffered_perform (t : BufferedSession) (op : Operation) :
    unbuffered (t.perform op) = t.session.perform op := by
  cases op with
  | reset => rfl
  | addClause lits => exact unbuffered_bind (unbuffered_addClause t lits) fun _ _ => rfl
  | solve simplify turnOff =>
    refine unbuffered_bind (unbuffered_finishSolve _ simplify turnOff) fun _ _ => rfl
  | solveAssuming assumptions simplify turnOff =>
    exact unbuffered_bind (unbuffered_solveAssuming t assumptions simplify turnOff) fun _ _ => rfl
  | solveByStrategy assumptions =>
    exact unbuffered_bind (unbuffered_solveByStrategy t assumptions) fun _ _ => rfl
  | newVar polarity decision =>
    change unbuffered (t.session.perform (.newVar polarity decision) >>= _) = _
    cases t.session.perform (.newVar polarity decision) with
    | error => rfl
    | ok => rfl
  | simplify =>
    change unbuffered (t.session.perform .simplify >>= _) = _
    cases t.session.perform .simplify with
    | error => rfl
    | ok => rfl
  | eliminate turnOff =>
    change unbuffered (t.session.perform (.eliminate turnOff) >>= _) = _
    cases t.session.perform (.eliminate turnOff) with
    | error => rfl
    | ok => rfl
  | _ => rfl

/-- Whatever the buffer holds, an operation that the session alone carries out is carried out. -/
theorem exists_perform {answer : Answer} {s' : Session} {op : Operation}
    (performed : s.perform op = .ok (answer, s')) (buffer : List (Literal Nat)) :
    ∃ buffer', perform ⟨s, buffer⟩ op = .ok (answer, ⟨s', buffer'⟩) := by
  have same := (unbuffered_perform ⟨s, buffer⟩ op).trans performed
  cases buffered : perform ⟨s, buffer⟩ op with
  | error =>
    rw [buffered] at same
    cases same
  | ok out =>
    obtain ⟨answer', s'', buffer'⟩ := out
    rw [buffered] at same
    cases same
    exact ⟨buffer', rfl⟩

/-- What a run answers, and the session that it leads to. -/
def outcome (t : BufferedSession) (ops : List Operation) : Checked (List Answer × Session) :=
  unbuffered (t.run ops)

/-- Every run is answered as by the session alone, whatever the buffer holds before it. -/
theorem outcome_eq (t : BufferedSession) (ops : List Operation) :
    t.outcome ops = t.session.run ops := by
  induction ops generalizing t with
  | nil => rfl
  | cons op ops ih =>
    refine unbuffered_bind (unbuffered_perform t op) fun answer t' => ?_
    exact unbuffered_bind (ih t') fun _ _ => rfl

end BufferedSession

end IncrementalSat
