import IncrementalSat.Clause.Basic
import IncrementalSat.Fault

/-!
# The clause store

Clauses are addressed by index. Removing a clause leaves a hole, so the indices of other clauses
stay valid until the store is compacted. Counters keep the numbers of problem clauses, learnt
clauses and holes.

Learnt clauses gain activity like variables gain scores: by a bump that grows at each conflict, and
is scaled down together with all activities when an activity becomes too large.
-/
namespace IncrementalSat

structure ClauseStore (n : Nat) where
  /-- The clauses by index; a hole is `none`. -/
  slots : Array (Option (Clause n))
  problems : Nat
  learnts : Nat
  holes : Nat
  bump : Float
  growth : Float

namespace ClauseStore

variable {n : Nat}

/-- The activity beyond which everything is scaled down, and the divisor. -/
def threshold : Float := 1e20

def empty (n : Nat) (decay : Float) : ClauseStore n :=
  { slots := #[], problems := 0, learnts := 0, holes := 0, bump := 1.0, growth := 1.0 / decay }

/-- The number of indices in use, holes included. -/
def size (s : ClauseStore n) : Nat := s.slots.size

/-- The clauses with their indices, in storage order. -/
def live (s : ClauseStore n) : List (Nat × Clause n) :=
  s.slots.toList.zipIdx.filterMap fun (slot, i) => slot.map (i, ·)

/-- Whether an index leads to a clause. -/
def isLive (s : ClauseStore n) (i : Nat) : Bool := (s.slots[i]?.join).isSome

/-- The clause at an index. -/
def fetch (s : ClauseStore n) (i : Nat) : Checked (Clause n) :=
  match s.slots[i]? with
  | none => .error .clauseOutOfRange
  | some none => .error .clauseRemoved
  | some (some c) => .ok c

/-- Puts a clause at an index in use. -/
def put (s : ClauseStore n) (i : Nat) (c : Clause n) : ClauseStore n :=
  { s with slots := s.slots.setIfInBounds i (some c) }

/-- Appends a clause, at the index `s.size`. -/
def push (s : ClauseStore n) (c : Clause n) : ClauseStore n :=
  let s := { s with slots := s.slots.push (some c) }
  if c.learnt then { s with learnts := s.learnts + 1 } else { s with problems := s.problems + 1 }

/-- Leaves a hole at an index. -/
def remove (s : ClauseStore n) (i : Nat) : Checked (ClauseStore n) := do
  let c ← s.fetch i
  let s := { s with slots := s.slots.setIfInBounds i none, holes := s.holes + 1 }
  if c.learnt then
    if s.learnts = 0 then .error .counterUnderflow
    else pure { s with learnts := s.learnts - 1 }
  else
    if s.problems = 0 then .error .counterUnderflow
    else pure { s with problems := s.problems - 1 }

/-- Adds the bump to the activity of a learnt clause. -/
def touch (s : ClauseStore n) (i : Nat) : Checked (ClauseStore n) := do
  let c ← s.fetch i
  if c.learnt then
    let activity := c.activity + s.bump
    let s := s.put i { c with activity }
    if activity > threshold then
      let scaled := s.slots.map fun slot =>
        slot.map fun d => { d with activity := d.activity / threshold }
      pure { s with slots := scaled, bump := s.bump / threshold }
    else pure s
  else pure s

/-- Lets the bump grow. -/
def advance (s : ClauseStore n) : ClauseStore n := { s with bump := s.bump * s.growth }

/-- Closes the holes, which changes the indices of the clauses behind them. -/
def compact (s : ClauseStore n) : ClauseStore n :=
  { s with slots := s.slots.filter (·.isSome), holes := 0 }

/-- The store after one more variable was allocated. -/
def grow (s : ClauseStore n) : ClauseStore (n + 1) :=
  { s with slots := s.slots.map fun slot => slot.map Clause.grow }

end ClauseStore

end IncrementalSat
