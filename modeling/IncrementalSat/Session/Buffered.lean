import IncrementalSat.Session.Operation

/-!
# Sessions with their buffer

The literals of a call are converted one by one into a buffer that outlives the call. A call that is
rejected halfway leaves in the buffer what it had converted until then; the next call that takes
literals empties the buffer first.
-/
namespace IncrementalSat

/-- A session with the converted literals of the last call that took literals. -/
structure BufferedSession where
  session : Session
  buffer : List (Literal Nat)

namespace BufferedSession

/-- Converts a literal of the caller. The error for an unallocated variable quotes the literal as it
was converted. -/
def convert (s : Session) (l : Int32) : Except Error (Lit s.numVars) := do
  let k ← Literal.ofSigned l
  match Lit.ofLiteral? s.numVars k with
  | none => .error (.invalidArgument k.toSigned s.numVars)
  | some l => if s.engine.isEliminated l.var then .error (.invalidState .eliminatedVariable) else .ok l

/-- Appends literals to the buffer until one of them is refused. -/
def fill (s : Session) (buffer : List (Literal Nat)) :
    List Int32 → Except Error Unit × List (Literal Nat)
  | [] => (.ok (), buffer)
  | l :: ls =>
    match convert s l with
    | .error e => (.error e, buffer)
    | .ok l => fill s (buffer ++ [l.toLiteral]) ls

def load (t : BufferedSession) (lits : List Int32) : Except Error Unit × BufferedSession :=
  let (result, buffer) := fill t.session [] lits
  (result, { t with buffer })

def addClause (t : BufferedSession) (lits : List Int32) :
    Checked (Except Error Bool × BufferedSession) :=
  match t.load lits with
  | (.error e, t) => .ok (.error e, t)
  | (.ok (), t) => do
    let (consistent, engine) ← t.session.engine.addClause t.buffer
    pure (.ok consistent, { t with session := { t.session with engine, modelReady := false } })

/-- The model cannot be read any more. -/
def withdraw (t : BufferedSession) : BufferedSession :=
  { t with session := { t.session with modelReady := false } }

/-- Solves under the literals in the buffer. -/
def finishSolve (t : BufferedSession) (simplify turnOff : Bool) : Checked (Bool × BufferedSession) := do
  let (sat, engine) ← t.session.engine.solve t.buffer simplify turnOff
  pure (sat, { t with session := { t.session with engine, modelReady := sat } })

def solve (t : BufferedSession) (simplify turnOff : Bool) : Checked (Bool × BufferedSession) :=
  { t.withdraw with buffer := [] }.finishSolve simplify turnOff

def solveAssuming (t : BufferedSession) (assumptions : List Int32) (simplify turnOff : Bool) :
    Checked (Except Error Bool × BufferedSession) :=
  match t.withdraw.load assumptions with
  | (.error e, t) => .ok (.error e, t)
  | (.ok (), t) => do
    let (sat, t) ← t.finishSolve simplify turnOff
    pure (.ok sat, t)

def solveByStrategy (t : BufferedSession) (assumptions : List Int32) :
    Checked (Except Error Bool × BufferedSession) := do
  let (simplify, turnOff) := t.session.strategyFlags
  let (answer, t) ← t.solveAssuming assumptions simplify turnOff
  match answer with
  | .error e => pure (.error e, t)
  | .ok sat => pure (.ok sat, { t with session := { t.session with solvedByStrategy := true } })

/-- Carries out an operation. Most of them leave the buffer alone. -/
def perform (t : BufferedSession) : Operation → Checked (Answer × BufferedSession)
  | .reset => .ok (.done, ⟨t.session.reset, []⟩)
  | .addClause lits => do
    let (answer, t) ← t.addClause lits
    pure (.ofExcept .flag answer, t)
  | .solve simplify turnOff => do
    let (sat, t) ← t.solve simplify turnOff
    pure (.flag sat, t)
  | .solveAssuming assumptions simplify turnOff => do
    let (answer, t) ← t.solveAssuming assumptions simplify turnOff
    pure (.ofExcept .flag answer, t)
  | .solveByStrategy assumptions => do
    let (answer, t) ← t.solveByStrategy assumptions
    pure (.ofExcept .flag answer, t)
  | op => do
    let (answer, s) ← t.session.perform op
    pure (answer, { t with session := s })

/-- Carries out operations one after the other. -/
def run (t : BufferedSession) : List Operation → Checked (List Answer × BufferedSession)
  | [] => .ok ([], t)
  | op :: ops => do
    let (answer, t) ← t.perform op
    let (answers, t) ← t.run ops
    pure (answer :: answers, t)

end BufferedSession

end IncrementalSat
