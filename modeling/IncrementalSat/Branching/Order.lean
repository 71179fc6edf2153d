import IncrementalSat.Branching.Heap

/-!
# Branching order

Variables met in recent conflicts come first. Each meeting adds the current bump to the score of
the variable, and instead of decaying every score the bump grows after each conflict. When the bump
becomes too large, it is scaled down together with all scores, which leaves their order alone.
-/
namespace IncrementalSat

structure BranchingOrder (n : Nat) where
  bump : Float
  growth : Float
  heap : VarHeap n

namespace BranchingOrder

variable {n : Nat}

/-- The bump beyond which everything is scaled down, and the divisor. -/
def threshold : Float := 1e100

def empty (decay : Float) : BranchingOrder 0 := ⟨1.0, 1.0 / decay, .empty⟩

/-- Adds a variable of score zero. -/
def grow (o : BranchingOrder n) : Checked (BranchingOrder (n + 1)) := do
  let heap ← o.heap.push 0.0
  pure ⟨o.bump, o.growth, heap⟩

/-- Adds the bump to the score of a variable. -/
def touch (o : BranchingOrder n) (v : Fin n) : BranchingOrder n :=
  { o with heap := o.heap.setScore v (o.heap.score.get v + o.bump) }

/-- Lets the bump grow, scaling down when it passes the threshold. -/
def advance (o : BranchingOrder n) : BranchingOrder n :=
  let bump := o.bump * o.growth
  if bump > threshold then
    { o with heap := o.heap.mapScores (· / threshold), bump := bump / threshold }
  else { o with bump := bump }

/-- The eligible variable of the greatest score. -/
def choose (o : BranchingOrder n) (eligible : Fin n → Bool) :
    Option (Fin n) × BranchingOrder n :=
  let (v, heap) := o.heap.choose eligible
  (v, { o with heap })

end BranchingOrder

end IncrementalSat
