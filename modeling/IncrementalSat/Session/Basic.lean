import IncrementalSat.Dimacs
import IncrementalSat.Engine.Solve
import IncrementalSat.Literal.Signed

/-!
# Sessions

A session is an engine as callers see it. Literals are signed numbers and are checked before the
engine sees them, and the model can be read only while it is current: from a solve that found it
until a variable or a clause is added or another solve is tried.

A call that checks its literals fails with the error of the first offending one.
-/
namespace IncrementalSat

structure Session where
  numVars : Nat
  engine : Engine numVars
  config : Config
  /-- A solve that leaves elimination to the strategy has been carried out. -/
  solvedByStrategy : Bool
  /-- The engine's model can be read. -/
  modelReady : Bool

namespace Session

/-- The session without variables. -/
def fresh (config : Config) : Session :=
  let engine := Engine.fresh config
  { numVars := 0
    engine := if config.strategy = .never then engine.stopEliminating else engine
    config
    solvedByStrategy := false
    modelReady := false }

/-- Starts over with the configuration the session was created with. -/
def reset (s : Session) : Session := fresh s.config

def consistent (s : Session) : Bool := s.engine.consistent

/-- The signed literals are the nonzero numbers between this bound, `2 ^ 31 - 1`, and its negation. -/
def maxVars : Nat := 2147483647

/-- The literal of an allocated variable that a signed literal stands for. -/
def literal (s : Session) (l : Int32) : Except Error (Lit s.numVars) := do
  match Lit.ofLiteral? s.numVars (← Literal.ofSigned l) with
  | none => .error (.invalidArgument l s.numVars)
  | some l => .ok l

/-- Like `literal`, but the variable must not be eliminated, since the engine no longer has its
clauses. -/
def usableLiteral (s : Session) (l : Int32) : Except Error (Lit s.numVars) := do
  let l ← s.literal l
  if s.engine.isEliminated l.var then .error (.invalidState .eliminatedVariable) else .ok l

def usableLiterals (s : Session) : List Int32 → Except Error (List (Lit s.numVars))
  | [] => .ok []
  | l :: ls => do
    let l ← s.usableLiteral l
    let ls ← s.usableLiterals ls
    pure (l :: ls)

/-! ## Variables -/

/-- Allocates the next variable. Answers its positive literal. -/
def newVar (s : Session) (polarity : Truth) (decision : Bool) : Checked (Int32 × Session) :=
  if s.numVars < maxVars then do
    let engine ← s.engine.newVar polarity decision
    let l : Literal Nat := ⟨s.numVars, true⟩
    pure (l.toSigned, { s with numVars := s.numVars + 1, engine, modelReady := false })
  else .error .tooManyVariables

def setPolarity (s : Session) (l : Int32) (polarity : Truth) : Except Error Session := do
  let l ← s.literal l
  pure { s with engine := s.engine.setPolarity l.var polarity }

def setDecision (s : Session) (l : Int32) (decision : Bool) : Except Error Session := do
  let l ← s.literal l
  pure { s with engine := s.engine.setDecision l.var decision }

def setFrozen (s : Session) (l : Int32) (frozen : Bool) : Except Error Session := do
  let l ← s.literal l
  pure { s with engine := s.engine.setFrozen l.var frozen }

def thaw (s : Session) : Session := { s with engine := s.engine.thaw }

def isFrozen (s : Session) (l : Int32) : Except Error Bool := do
  let l ← s.literal l
  pure (s.engine.isFrozen l.var)

def isEliminated (s : Session) (l : Int32) : Except Error Bool := do
  let l ← s.literal l
  pure (s.engine.isEliminated l.var)

/-! ## Clauses and solving -/

/-- Adds a clause. Answers whether no contradiction is known. -/
def addClause (s : Session) (lits : List Int32) : Checked (Except Error Bool × Session) :=
  match s.usableLiterals lits with
  | .error e => .ok (.error e, s)
  | .ok lits => do
    let (consistent, engine) ← s.engine.addClause (lits.map Lit.toLiteral)
    pure (.ok consistent, { s with engine, modelReady := false })

/-- Solves under assumptions. Answers whether there is a model, which can then be read. -/
def solveAssuming (s : Session) (assumptions : List Int32) (simplify turnOff : Bool) :
    Checked (Except Error Bool × Session) :=
  match s.usableLiterals assumptions with
  | .error e => .ok (.error e, { s with modelReady := false })
  | .ok lits => do
    let (sat, engine) ← s.engine.solve (lits.map Lit.toLiteral) simplify turnOff
    pure (.ok sat, { s with engine, modelReady := sat })

/-- Solves without assumptions. -/
def solve (s : Session) (simplify turnOff : Bool) : Checked (Bool × Session) := do
  let (sat, engine) ← s.engine.solve [] simplify turnOff
  pure (sat, { s with engine, modelReady := sat })

/-- Whether the strategy asks to eliminate variables now, and to turn elimination off then. -/
def strategyFlags (s : Session) : Bool × Bool :=
  match s.config.strategy with
  | .never => (false, false)
  | .once => (!s.solvedByStrategy, !s.solvedByStrategy)
  | .always => (true, false)

/-- Solves under assumptions and leaves it to the strategy whether to eliminate variables. A
rejected call does not count as a solve. -/
def solveByStrategy (s : Session) (assumptions : List Int32) :
    Checked (Except Error Bool × Session) := do
  let (simplify, turnOff) := s.strategyFlags
  let (answer, s) ← s.solveAssuming assumptions simplify turnOff
  match answer with
  | .error e => pure (.error e, s)
  | .ok sat => pure (.ok sat, { s with solvedByStrategy := true })

/-- Cleans the clauses up at level zero. Answers whether no contradiction is known. -/
def simplify (s : Session) : Checked (Bool × Session) := do
  let (consistent, engine) ← s.engine.simplify
  pure (consistent, { s with engine })

/-- Eliminates variables. Answers whether no contradiction is known. -/
def eliminate (s : Session) (turnOff : Bool) : Checked (Bool × Session) := do
  let (consistent, engine) ← s.engine.eliminate turnOff
  pure (consistent, { s with engine })

/-! ## Models -/

/-- The value of a literal in the current model. -/
def modelValue (s : Session) (l : Int32) : Except Error Truth :=
  if s.modelReady then do
    let l ← s.literal l
    pure (s.engine.modelValue l)
  else .error (.invalidState .noModel)

/-- Like `modelValue`, but it is an error if the literal is unset. -/
def value (s : Session) (l : Int32) : Except Error Bool := do
  let t ← s.modelValue l
  match t with
  | .holds => .ok true
  | .fails => .ok false
  | .unset => .error (.invalidState .unassigned)

/-- The current model by variable, after an unused entry in front. An unset variable reads as
false. -/
def model (s : Session) : Except Error (List Bool) :=
  if s.modelReady then
    .ok (false :: (List.finRange s.numVars).map fun v => (s.engine.modelValue ⟨v, true⟩).isHolds)
  else .error (.invalidState .noModel)

/-! ## Export -/

/-- What is fixed for good, as unit clauses, and the problem clauses. -/
def dimacs (s : Session) : Dimacs where
  numVars := s.numVars
  clauses :=
    s.engine.fixed.map (fun l => [l.toSigned])
      ++ s.engine.problemClauses.map fun c => c.map Lit.toSigned

end Session

end IncrementalSat
