import IncrementalSat.LastToFront
import IncrementalSat.Propagator.Basic

/-!
# Unit propagation

When a literal becomes false, only the clauses that watch it are looked at. A clause with a true
literal stays. A clause with an unassigned literal to take over the watch moves to the list of that
literal. Otherwise the other watched literal is implied, or is false as well, which is a conflict.
The place in the list of a clause that leaves it goes to the last clause of the list.
-/
namespace IncrementalSat

/-- What becomes of an entry of the watch list of a false literal. -/
inductive Visit where
  /-- The entry stays. -/
  | keep
  /-- The entry leaves the list. -/
  | drop
  /-- The entry stays, and every literal of its clause is false. -/
  | conflict
  deriving DecidableEq, Repr

namespace Propagator

variable {n : Nat}

/-- Looks at the clause `i` that watches the false literal `watched`. -/
def visit (p : Propagator n) (watched : Lit n) (i : Nat) : Checked (Visit × Propagator n) :=
  match p.store.slots[i]? with
  | none => .error .clauseOutOfRange
  | some none => .ok (.drop, p)
  | some (some stored) =>
    let c := stored.turn watched
    if c.second ≠ watched then .error .watchMisplaced
    else
      let p := { p with store := p.store.put i c }
      match p.trail.eval c.first with
      | some true => .ok (.keep, p)
      | value =>
        match p.trail.scan c.rest with
        | .satisfied => .ok (.keep, p)
        | .unassigned before l after =>
          if c.first = l then .error .watchRepeated
          else if (p.watches.get l).contains i then .error .watchDuplicated
          else
            let moved := { c with second := l, rest := before ++ watched :: after }
            .ok (.drop, { p with store := p.store.put i moved, watches := p.watches.push l i })
        | .falsified =>
          if value.isNone then .ok (.keep, p.assign c.first (.clause i)) else .ok (.conflict, p)

/-- Looks at the pending entries of the watch list of a false literal, up to a conflict. The list
becomes the entries that were kept, and after a conflict also those still pending. -/
def visitAll (watched : Lit n) (kept : Array Nat) :
    List Nat → Propagator n → Checked (Option Nat × Propagator n)
  | [], p => .ok (none, { p with watches := p.watches.set watched kept })
  | i :: pending, p => do
    let (outcome, p) ← p.visit watched i
    match outcome with
    | .keep => visitAll watched (kept.push i) pending p
    | .drop => visitAll watched kept (lastToFront pending) p
    | .conflict =>
      let remaining := kept ++ (i :: pending).toArray
      .ok (some i, { p with watches := p.watches.set watched remaining })
  termination_by pending => pending.length

/-- Propagates literals from the head on, at most as many as the first argument says, up to a
conflict. The head stays at a literal that led to a conflict. -/
def propagateUpTo : Nat → Propagator n → Checked (Option Nat × Propagator n)
  | 0, p => if p.head < p.trail.size then .error .boundExceeded else .ok (none, p)
  | k + 1, p =>
    match p.trail.lits[p.head]? with
    | none => .ok (none, p)
    | some l => do
      let watched := l.neg
      let entries := (p.watches.get watched).toList
      let (conflict, p) ←
        visitAll watched #[] entries { p with propagations := p.propagations + 1 }
      match conflict with
      | some i => .ok (some i, p)
      | none => propagateUpTo k { p with head := p.head + 1 }

/-- Propagates the trail. Answers the index of a clause that became false, if there is one. The
trail holds no variable twice, so there are at most `n` literals to propagate. -/
def propagate (p : Propagator n) : Checked (Option Nat × Propagator n) := propagateUpTo n p

end Propagator

end IncrementalSat
