import IncrementalSat.Branching.Order
import IncrementalSat.Config
import IncrementalSat.Formula
import IncrementalSat.Propagator.Addition
import IncrementalSat.Propagator.Cleaning
import IncrementalSat.Restart

/-!
# The engine

The state of a conflict-driven solver over `n` variables: a propagator, what guides the search, what
callers said about variables, and the last model. Between calls the trail is at level zero.

When a variable is eliminated, the clauses it occurred in leave the store and are kept with it, the
latest elimination first, so that a model of what is left can be extended to the variable.
-/
namespace IncrementalSat

/-- A variable that was eliminated and the clauses that were removed with it. -/
structure Elimination (n : Nat) where
  var : Fin n
  clauses : List (List (Lit n))

namespace Elimination

/-- The elimination after one more variable was allocated. -/
def grow {n : Nat} (e : Elimination n) : Elimination (n + 1) :=
  ⟨e.var.castSucc, e.clauses.map fun c => c.map Lit.grow⟩

end Elimination

/-- The marks a caller or the engine puts on variables. -/
structure Marks (n : Nat) where
  /-- The sign to try first. -/
  polarity : Vector Truth n
  /-- The search may branch on the variable. -/
  decision : Vector Bool n
  /-- The variable must not be eliminated. -/
  frozen : Vector Bool n
  eliminated : Vector Bool n

namespace Marks

variable {n : Nat}

def empty : Marks 0 := ⟨#v[], #v[], #v[], #v[]⟩

/-- The marks after one more variable was allocated. -/
def grow (m : Marks n) (polarity : Truth) (decision : Bool) : Marks (n + 1) :=
  { polarity := m.polarity.push polarity
    decision := m.decision.push decision
    frozen := m.frozen.push false
    eliminated := m.eliminated.push false }

end Marks

/-- Counts over the life of an engine. -/
structure Stats where
  decisions : Nat := 0
  conflicts : Nat := 0
  restarts : Nat := 0
  deriving DecidableEq, Repr

structure Engine (n : Nat) extends Propagator n where
  config : Config
  /-- Learnt clauses allowed beyond the length of the trail. -/
  learntLimit : Float
  order : BranchingOrder n
  restarts : Restarts
  /-- The marks of conflict analysis. -/
  seen : Vector Bool n
  marks : Marks n
  eliminations : List (Elimination n)
  /-- Whether variables may still be eliminated. -/
  eliminates : Bool
  /-- The model of the last solve, empty if there was none. -/
  model : Array Truth
  stats : Stats

namespace Engine

variable {n : Nat}

/-- The least number of learnt clauses allowed at the start of a search. -/
def minLearnts : Float := 100.0

/-- The engine without variables. -/
def fresh (config : Config) : Engine 0 :=
  { toPropagator := .fresh config.clauseDecay
    config
    learntLimit := minLearnts
    order := .empty config.varDecay
    restarts := .ofBase config.restartBase
    seen := #v[]
    marks := .empty
    eliminations := []
    eliminates := true
    model := #[]
    stats := {} }

/-- Allocates the next variable, whose number is `n`. -/
def newVar (e : Engine n) (polarity : Truth) (decision : Bool) : Checked (Engine (n + 1)) := do
  let order ← e.order.grow
  pure
    { toPropagator := e.toPropagator.grow
      config := e.config
      learntLimit := e.learntLimit
      order
      restarts := e.restarts
      seen := e.seen.push false
      marks := e.marks.grow polarity decision
      eliminations := e.eliminations.map Elimination.grow
      eliminates := e.eliminates
      model := e.model
      stats := e.stats }

def setPolarity (e : Engine n) (v : Fin n) (polarity : Truth) : Engine n :=
  { e with marks.polarity := e.marks.polarity.set v polarity v.isLt }

def setDecision (e : Engine n) (v : Fin n) (decision : Bool) : Engine n :=
  { e with marks.decision := e.marks.decision.set v decision v.isLt }

def setFrozen (e : Engine n) (v : Fin n) (frozen : Bool) : Engine n :=
  { e with marks.frozen := e.marks.frozen.set v frozen v.isLt }

/-- Unfreezes every variable. -/
def thaw (e : Engine n) : Engine n := { e with marks.frozen := .replicate n false }

def isFrozen (e : Engine n) (v : Fin n) : Bool := e.marks.frozen.get v

def isEliminated (e : Engine n) (v : Fin n) : Bool := e.marks.eliminated.get v

/-- Turns variable elimination off for good. -/
def stopEliminating (e : Engine n) : Engine n := { e with eliminates := false }

/-- The value of a literal in the stored model; a variable beyond it is unset. -/
def modelValue (e : Engine n) (l : Lit n) : Truth := l.toLiteral.truthIn e.model

/-- Replaces the propagator of an engine by what a computation makes of it. -/
def propagating {α : Type} (e : Engine n)
    (f : Propagator n → Checked (α × Propagator n)) : Checked (α × Engine n) := do
  let (a, p) ← f e.toPropagator
  pure (a, { e with toPropagator := p })

/-- Adds a problem clause. Answers whether no contradiction is known. -/
def addClause (e : Engine n) (lits : List (Literal Nat)) : Checked (Bool × Engine n) :=
  e.propagating (·.addClause lits)

/-- Cleans the clauses up at level zero. Answers whether no contradiction is known. -/
def simplify (e : Engine n) : Checked (Bool × Engine n) := e.propagating (·.simplify)

/-- Goes back to a level. -/
def retreat (e : Engine n) (level : Nat) : Checked (Engine n) := do
  let p ← e.toPropagator.retreat level
  pure { e with toPropagator := p }

end Engine

end IncrementalSat
