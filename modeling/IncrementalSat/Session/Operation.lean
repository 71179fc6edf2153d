import IncrementalSat.Session.Basic

/-!
# Operations on sessions

Every way to use a session as one value, and what comes back, so that a history of a session is a
list of operations.
-/
namespace IncrementalSat

inductive Operation where
  | newVar (polarity : Truth) (decision : Bool)
  | setPolarity (l : Int32) (polarity : Truth)
  | setDecision (l : Int32) (decision : Bool)
  | setFrozen (l : Int32) (frozen : Bool)
  | thaw
  | reset
  | isFrozen (l : Int32)
  | isEliminated (l : Int32)
  | addClause (lits : List Int32)
  | solve (simplify turnOff : Bool)
  | solveAssuming (assumptions : List Int32) (simplify turnOff : Bool)
  | solveByStrategy (assumptions : List Int32)
  | simplify
  | eliminate (turnOff : Bool)
  | model
  | modelValue (l : Int32)
  | value (l : Int32)
  | dimacs
  | isConsistent
  | numVars
  | numProblems
  | numLearnts
  | decisions
  | propagations
  | conflicts
  | restarts
  deriving DecidableEq, Repr

inductive Answer where
  | done
  | literal (l : Int32)
  | flag (b : Bool)
  | count (k : Nat)
  | truth (t : Truth)
  | bits (bs : List Bool)
  | text (s : String)
  | rejected (e : Error)
  deriving DecidableEq, Repr

namespace Answer

/-- The answer to a call that can be rejected. -/
def ofExcept {α : Type} (f : α → Answer) : Except Error α → Answer
  | .error e => .rejected e
  | .ok a => f a

end Answer

namespace Session

/-- The answer to a call that changes nothing when it is rejected. -/
def update (s : Session) : Except Error Session → Answer × Session
  | .error e => (.rejected e, s)
  | .ok s => (.done, s)

/-- Carries out an operation. -/
def perform (s : Session) : Operation → Checked (Answer × Session)
  | .newVar polarity decision => do
    let (l, s) ← s.newVar polarity decision
    pure (.literal l, s)
  | .setPolarity l polarity => .ok (s.update (s.setPolarity l polarity))
  | .setDecision l decision => .ok (s.update (s.setDecision l decision))
  | .setFrozen l frozen => .ok (s.update (s.setFrozen l frozen))
  | .thaw => .ok (.done, s.thaw)
  | .reset => .ok (.done, s.reset)
  | .isFrozen l => .ok (.ofExcept .flag (s.isFrozen l), s)
  | .isEliminated l => .ok (.ofExcept .flag (s.isEliminated l), s)
  | .addClause lits => do
    let (answer, s) ← s.addClause lits
    pure (.ofExcept .flag answer, s)
  | .solve simplify turnOff => do
    let (sat, s) ← s.solve simplify turnOff
    pure (.flag sat, s)
  | .solveAssuming assumptions simplify turnOff => do
    let (answer, s) ← s.solveAssuming assumptions simplify turnOff
    pure (.ofExcept .flag answer, s)
  | .solveByStrategy assumptions => do
    let (answer, s) ← s.solveByStrategy assumptions
    pure (.ofExcept .flag answer, s)
  | .simplify => do
    let (consistent, s) ← s.simplify
    pure (.flag consistent, s)
  | .eliminate turnOff => do
    let (consistent, s) ← s.eliminate turnOff
    pure (.flag consistent, s)
  | .model => .ok (.ofExcept .bits s.model, s)
  | .modelValue l => .ok (.ofExcept .truth (s.modelValue l), s)
  | .value l => .ok (.ofExcept .flag (s.value l), s)
  | .dimacs => .ok (.text s.dimacs.render, s)
  | .isConsistent => .ok (.flag s.consistent, s)
  | .numVars => .ok (.count s.numVars, s)
  | .numProblems => .ok (.count s.engine.store.problems, s)
  | .numLearnts => .ok (.count s.engine.store.learnts, s)
  | .decisions => .ok (.count s.engine.stats.decisions, s)
  | .propagations => .ok (.count s.engine.propagations, s)
  | .conflicts => .ok (.count s.engine.stats.conflicts, s)
  | .restarts => .ok (.count s.engine.stats.restarts, s)

/-- Carries out operations one after the other. -/
def run (s : Session) : List Operation → Checked (List Answer × Session)
  | [] => .ok ([], s)
  | op :: ops => do
    let (answer, s) ← s.perform op
    let (answers, s) ← s.run ops
    pure (answer :: answers, s)

end Session

end IncrementalSat
