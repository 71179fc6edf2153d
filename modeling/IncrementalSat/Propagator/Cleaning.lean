import IncrementalSat.Branching.Score
import IncrementalSat.Propagator.Propagation
import IncrementalSat.StableSort

/-!
# Dropping and simplifying clauses

During a search the less active half of the long learnt clauses can be dropped, except those that
explain a literal of the trail.

At level zero no clause explains anything. Once everything is propagated, a clause with a true
literal can be removed, and false literals can be deleted from the others; the watched literals of a
clause that stays are unassigned. The store is compacted once more than half of it is holes, and the
watch lists are built anew.
-/
namespace IncrementalSat

namespace Propagator

variable {n : Nat}

/-- Removes the clause `i`. Its entries in watch lists stay until they are visited. -/
def remove (p : Propagator n) (i : Nat) : Checked (Propagator n) := do
  let store ← p.store.remove i
  pure { p with store }

/-- Removes the clauses at some indices. -/
def removeAll : List Nat → Propagator n → Checked (Propagator n)
  | [], p => .ok p
  | i :: is, p => do
    let p ← p.remove i
    removeAll is p

/-! ## Learnt clauses -/

/-- Whether the clause `i` is the reason of its first literal. -/
def explains (p : Propagator n) (i : Nat) (c : Clause n) : Bool :=
  p.trail.eval c.first == some true && p.trail.reasonOf c.first.var == some (.clause i)

/-- The learnt clauses that may be dropped, in storage order. -/
def droppable (p : Propagator n) : List (Nat × Clause n) :=
  p.store.live.filter fun (i, c) => c.learnt && !c.rest.isEmpty && !p.explains i c

/-- Removes the less active half of the droppable clauses. Of two equally active ones the older
goes first. -/
def reduceLearnts (p : Propagator n) : Checked (Propagator n) :=
  let sorted := StableSort.sort (fun a b => Score.le a.2.activity b.2.activity) p.droppable
  removeAll ((sorted.take (sorted.length / 2)).map (·.1)) p

/-! ## Level zero -/

/-- The watch lists of the clauses of a store. -/
def watchesOf (store : ClauseStore n) : LitMap n (Array Nat) :=
  store.live.foldl (fun w (i, c) => (w.push c.first i).push c.second i) (.replicate n #[])

/-- Compacts the store if more than half of it is holes. -/
def collectGarbage (p : Propagator n) : Checked (Propagator n) := do
  p.requireRoot
  if p.store.holes * 2 ≤ p.store.size then pure p
  else
    let store := p.store.compact
    pure { p with store, watches := watchesOf store }

/-- Removes the clause `i`, deletes its false literals, or leaves it. -/
def simplifyClause (p : Propagator n) (i : Nat) (c : Clause n) : Checked (Propagator n) :=
  if c.lits.any fun l => p.trail.eval l == some true then p.remove i
  else if c.rest.any fun l => p.trail.eval l == some false then
    match c.withLits? (c.lits.filter fun l => p.trail.eval l != some false) with
    | none => .error .clauseTooShort
    | some stripped => .ok { p with store := p.store.put i stripped }
  else .ok p

def simplifyClauses : List (Nat × Clause n) → Propagator n → Checked (Propagator n)
  | [], p => .ok p
  | (i, c) :: rest, p => do
    let p ← p.simplifyClause i c
    simplifyClauses rest p

/-- Propagates, then simplifies every clause. Answers whether no contradiction is known. -/
def simplify (p : Propagator n) : Checked (Bool × Propagator n) := do
  p.requireRoot
  if !p.consistent then pure (false, p)
  else
    let (conflict, p) ← p.propagate
    if conflict.isSome then pure (false, { p with consistent := false })
    else
      let p ← simplifyClauses p.store.live p
      let p ← p.collectGarbage
      pure (true, p)

end Propagator

end IncrementalSat
