import IncrementalSat.Engine.Elimination
import IncrementalSat.Engine.Search

/-!
# Solving

Solving eliminates variables if asked to, with the assumption variables frozen for the time being,
then searches. The assignment a search ends with, extended to the eliminated variables, is the
model. The engine goes back to level zero in any case.
-/
namespace IncrementalSat

namespace Engine

variable {n : Nat}

/-- The limit that the ratio asks for, but not below the least one. -/
def initialLearntLimit (e : Engine n) : Float :=
  let limit := e.store.problems.toUInt64.toFloat * e.config.learntRatio
  if limit > minLearnts then limit else minLearnts

/-- Freezes the variables of some literals. Answers those that were not frozen. -/
def freezeAll : List (Literal Nat) → Engine n → Checked (List (Fin n) × Engine n)
  | [], e => .ok ([], e)
  | l :: ls, e => do
    let l ← Lit.lookup n l
    if e.isFrozen l.var then freezeAll ls e
    else
      let (vs, e) ← freezeAll ls (e.setFrozen l.var true)
      pure (l.var :: vs, e)

def unfreezeAll (vs : List (Fin n)) (e : Engine n) : Engine n :=
  vs.foldl (fun e v => e.setFrozen v false) e

/-- Eliminates variables other than those of the assumptions. -/
def eliminateUnder (e : Engine n) (assumptions : List (Literal Nat)) (turnOff : Bool) :
    Checked (Bool × Engine n) := do
  let (vs, e) ← e.freezeAll assumptions
  let (consistent, e) ← e.eliminate turnOff
  pure (consistent, e.unfreezeAll vs)

/-- Eliminates variables if asked to. Answers whether there is something left to search. -/
def prepare (e : Engine n) (assumptions : List (Literal Nat)) (simplify turnOff : Bool) :
    Checked (Bool × Engine n) := do
  let (ready, e) ← if simplify then e.eliminateUnder assumptions turnOff else .ok (true, e)
  pure (ready, if turnOff then e.stopEliminating else e)

/-- The values of all variables on the trail. -/
def assignment (e : Engine n) : Vector Truth n :=
  Vector.ofFn fun v => .ofOption (e.trail.valueOf v)

/-- Undoes every elimination on a model, the latest first. -/
def extend (e : Engine n) (model : Vector Truth n) : Vector Truth n :=
  e.eliminations.foldl (fun model entry => entry.undo model) model

/-- Gets ready for a search: drops holes and sets the limit of learnt clauses. -/
def prepareSearch (e : Engine n) : Checked (Engine n) := do
  let p ← e.toPropagator.collectGarbage
  pure { e with toPropagator := p, learntLimit := e.initialLearntLimit }

/-- Searches for a model under assumptions, and keeps it if there is one. -/
def searchModel (e : Engine n) (assumptions : List (Literal Nat)) :
    Checked (Bool × Engine n) := do
  let e ← e.prepareSearch
  let (verdict, e) ← e.search assumptions
  match verdict with
  | .sat =>
    let e ← { e with model := (e.extend e.assignment).toArray }.retreat 0
    pure (true, e)
  | .unsat | .failed =>
    let e ← e.retreat 0
    pure (false, e)

/-- Solves under assumptions. With `simplify`, variables are eliminated first; `turnOff` turns
elimination off for later. -/
def solve (e : Engine n) (assumptions : List (Literal Nat)) (simplify turnOff : Bool) :
    Checked (Bool × Engine n) := do
  let e := { e with model := #[] }
  if !e.consistent then pure (false, e)
  else
    let (ready, e) ← e.prepare assumptions simplify turnOff
    if ready then e.searchModel assumptions else pure (false, e)

end Engine

end IncrementalSat
