import IncrementalSat.Analysis
import IncrementalSat.Engine.Basic

/-!
# Search

A search alternates propagation with decisions. A conflict is analysed, and the clause learnt from
it asserts its first literal after a jump back; a conflict at level zero refutes the clauses. The
assumptions are the first decisions, one level each, a level staying empty if its assumption
already holds; the variable of an assumption has to be allocated once its turn comes. When the
restart sequence says so, everything above level zero is taken back. When the learnt clauses become
too many, some are dropped and the limit is raised by a tenth.
-/
namespace IncrementalSat

/-- How a search ends. -/
inductive Verdict where
  /-- Every variable that may be branched on has a value, without conflict. -/
  | sat
  /-- The clauses are unsatisfiable. -/
  | unsat
  /-- An assumption is false. -/
  | failed
  deriving DecidableEq, Repr

/-- What a step of a search leads to: an end, or another step, possibly with a restart due. -/
inductive Progress where
  | finished (verdict : Verdict)
  | running (restartDue : Bool)
  deriving DecidableEq, Repr

/-- The next decision that the assumptions ask for. -/
inductive Request (n : Nat) where
  /-- An assumption is false. -/
  | refused
  /-- Every assumption holds. -/
  | settled
  /-- This assumption has no value yet. -/
  | wanted (l : Lit n)
  deriving DecidableEq, Repr

namespace Propagator

variable {n : Nat}

/-- Jumps back, stores a learnt clause and asserts its first literal. -/
def learn (p : Propagator n) (b : Backjump n) : Checked (Propagator n) := do
  let p ← p.retreat b.level
  match b.others with
  | [] => pure (p.assign b.asserting .root)
  | second :: rest => do
    let i := p.store.size
    let p := p.attach { first := b.asserting, second, rest, learnt := true }
    let store ← p.store.touch i
    pure ({ p with store }.assign b.asserting (.clause i))

/-- Opens an empty level for each assumption that holds already, up to the first that does not. -/
def openAssumed : List (Literal Nat) → Propagator n → Checked (Request n × Propagator n)
  | [], p => .ok (.settled, p)
  | l :: ls, p => do
    let l ← Lit.lookup n l
    match p.trail.eval l with
    | some true => openAssumed ls { p with trail := p.trail.openLevel }
    | some false => pure (.refused, p)
    | none => pure (.wanted l, p)

end Propagator

namespace Engine

variable {n : Nat}

/-! ## Conflicts -/

/-- Analyses a conflict above level zero and learns from it. -/
def learnFrom (e : Engine n) (conflict : Nat) : Checked (Engine n) := do
  let start : Analysis n :=
    { store := e.store, order := e.order, seen := e.seen, lower := #[], pending := 0 }
  let (backjump, a) ← start.run e.trail conflict
  let p ← { e.toPropagator with store := a.store }.learn backjump
  pure { e with toPropagator := p, order := a.order, seen := a.seen }

/-- Counts a conflict. -/
def countConflict (e : Engine n) : Engine n :=
  { e with
    stats.conflicts := e.stats.conflicts + 1
    restarts := e.restarts.onConflict }

/-- Handles a clause that became false. -/
def resolveConflict (e : Engine n) (restartDue : Bool) (conflict : Nat) :
    Checked (Progress × Engine n) := do
  let e := e.countConflict
  if e.trail.level = 0 then pure (.finished .unsat, { e with consistent := false })
  else
    let e ← e.learnFrom conflict
    let (due, restarts) := e.restarts.due
    pure (.running (restartDue || due), { e with restarts })

/-- Goes back to level zero and counts the restart. -/
def restart (e : Engine n) : Checked (Engine n) :=
  { e with stats.restarts := e.stats.restarts + 1 }.retreat 0

/-! ## Decisions -/

/-- Whether the search may branch on a variable now. -/
def isEligible (e : Engine n) (v : Fin n) : Bool :=
  e.marks.decision.get v && (e.trail.valueOf v).isNone

/-- The sign to try first: the one asked for, or else the one the variable had last. -/
def preferredSign (e : Engine n) (v : Fin n) : Bool :=
  match e.marks.polarity.get v with
  | .holds => true
  | .fails => false
  | .unset => e.trail.phase.get v

/-- The literal to decide where the assumptions leave the choice. -/
def pickBranch (e : Engine n) : Option (Lit n) × Engine n :=
  let (v, order) := e.order.choose e.isEligible
  (v.map fun v => ⟨v, e.preferredSign v⟩, { e with order })

/-- Makes a decision, and counts it. -/
def decideOn (e : Engine n) (l : Lit n) : Engine n :=
  { e with
    trail := e.trail.openWith l
    stats.decisions := e.stats.decisions + 1 }

/-- Decides the next literal, or finds that there is none. -/
def branch (assumptions : List (Literal Nat)) (e : Engine n) : Checked (Progress × Engine n) := do
  let (request, e) ← e.propagating (·.openAssumed (assumptions.drop e.trail.level))
  match request with
  | .refused => pure (.finished .failed, e)
  | .wanted l => pure (.running false, e.decideOn l)
  | .settled =>
    match e.pickBranch with
    | (none, e) => pure (.finished .sat, e)
    | (some l, e) => pure (.running false, e.decideOn l)

/-! ## Learnt clauses -/

/-- Whether learnt clauses are to be dropped: those in excess of the length of the trail reach the
limit. The limit is positive, so it does not matter that the excess is never negative. -/
def hasTooManyLearnts (e : Engine n) : Bool :=
  (e.store.learnts - e.trail.size).toUInt64.toFloat ≥ e.learntLimit

/-- Drops learnt clauses if there are too many. -/
def trimLearnts (e : Engine n) : Checked (Engine n) :=
  if e.hasTooManyLearnts then do
    let p ← e.toPropagator.reduceLearnts
    pure { e with toPropagator := p, learntLimit := e.learntLimit * 1.1 }
  else .ok e

/-! ## The loop -/

/-- One step of a search. -/
def searchStep (assumptions : List (Literal Nat)) (restartDue : Bool) (e : Engine n) :
    Checked (Progress × Engine n) := do
  let (conflict, e) ← e.propagating (·.propagate)
  match conflict with
  | some i => e.resolveConflict restartDue i
  | none =>
    if restartDue then
      let e ← e.restart
      pure (.running false, e)
    else
      let e ← e.trimLearnts
      e.branch assumptions

/-- Takes at most as many steps as the first argument says. -/
def searchUpTo (assumptions : List (Literal Nat)) :
    Nat → Bool → Engine n → Checked (Verdict × Engine n)
  | 0, _, _ => .error .boundExceeded
  | k + 1, restartDue, e => do
    let (progress, e) ← searchStep assumptions restartDue e
    match progress with
    | .finished verdict => pure (verdict, e)
    | .running restartDue => searchUpTo assumptions k restartDue e

/-- More steps than a search over `n` variables can take. Each time learnt clauses are dropped
their limit grows, which a double can do less than `2 ^ 64` times. In between, each conflict fixes a
variable at level zero or stores a clause whose set of literals is new, and there are `3 ^ n` sets
without opposite literals. From one conflict to the next there is at most one restart, and each
decision assigns another variable. -/
def searchBound (n : Nat) : Nat := UInt64.size * (Nat.pow 3 n + n + 1) * (n + 3)

/-- Searches for an assignment that satisfies the clauses and the assumptions. -/
def search (e : Engine n) (assumptions : List (Literal Nat)) : Checked (Verdict × Engine n) :=
  searchUpTo assumptions (searchBound n) false e

end Engine

end IncrementalSat
