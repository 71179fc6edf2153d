import IncrementalSat.Clause.Store
import IncrementalSat.LitMap
import IncrementalSat.Trail

/-!
# Clauses at work

A propagator holds clauses together with the trail. Each clause is listed under the two literals it
watches; the literals of the trail from position `head` on have not been propagated yet. Once the
clauses are known to be unsatisfiable the propagator is no longer consistent.
-/
namespace IncrementalSat

/-- Looks up a literal, whose variable has to be allocated. -/
def Lit.lookup (n : Nat) (l : Literal Nat) : Checked (Lit n) :=
  match Lit.ofLiteral? n l with
  | none => .error .variableUnallocated
  | some l => .ok l

@[simp] theorem Lit.lookup_toLiteral {n : Nat} (l : Lit n) : lookup n l.toLiteral = .ok l := by
  simp [lookup, ofLiteral?_toLiteral]

structure Propagator (n : Nat) where
  store : ClauseStore n
  trail : Trail n
  /-- The indices of the clauses that watch each literal. -/
  watches : LitMap n (Array Nat)
  /-- The position on the trail of the next literal to propagate. -/
  head : Nat
  /-- False once the clauses are known to be unsatisfiable. -/
  consistent : Bool
  /-- How many literals have been propagated so far. -/
  propagations : Nat

namespace Propagator

variable {n : Nat}

/-- The propagator without variables. -/
def fresh (clauseDecay : Float) : Propagator 0 :=
  { store := .empty 0 clauseDecay
    trail := .empty
    watches := .replicate 0 #[]
    head := 0
    consistent := true
    propagations := 0 }

/-- The propagator after one more variable was allocated. -/
def grow (p : Propagator n) : Propagator (n + 1) :=
  { store := p.store.grow
    trail := p.trail.grow
    watches := p.watches.grow #[]
    head := p.head
    consistent := p.consistent
    propagations := p.propagations }

/-- The problem clauses, in storage order. -/
def problemClauses (p : Propagator n) : List (List (Lit n)) :=
  p.store.live.filterMap fun (_, c) => if c.learnt then none else some c.lits

/-- The literals that are true for good, as long as the trail is at level zero. -/
def fixed (p : Propagator n) : List (Lit n) := p.trail.lits.toList

/-- Fails unless the trail is at level zero. -/
def requireRoot (p : Propagator n) : Checked Unit :=
  if p.trail.level = 0 then .ok () else .error .levelOpen

/-- Makes a literal true. -/
def assign (p : Propagator n) (l : Lit n) (reason : Reason) : Propagator n :=
  { p with trail := p.trail.assign l reason }

/-- Stores a clause and lists it under its watched literals. Its index is `p.store.size`. -/
def attach (p : Propagator n) (c : Clause n) : Propagator n :=
  let i := p.store.size
  { p with
    store := p.store.push c
    watches := (p.watches.push c.first i).push c.second i }

/-- Takes the literals above a level off the trail. -/
def backtrack (p : Propagator n) (level : Nat) : Propagator n :=
  let trail := p.trail.backtrack level
  { p with trail, head := min p.head trail.size }

/-- Goes back to a level. The trail has to reach to where the next level starts. -/
def retreat (p : Propagator n) (level : Nat) : Checked (Propagator n) :=
  if p.trail.starts[level]?.all (· ≤ p.trail.size) then .ok (p.backtrack level)
  else .error .trailOutOfRange

end Propagator

end IncrementalSat
