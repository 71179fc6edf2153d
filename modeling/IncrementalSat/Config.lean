/-!
# Configuration

The parameters of a solver and their defaults.
-/
namespace IncrementalSat

/-- When a solve that leaves the choice to the configuration runs variable elimination first. -/
inductive Strategy where
  /-- Elimination is switched off from the start. -/
  | never
  /-- The first such solve eliminates and then switches elimination off. -/
  | once
  /-- Every such solve eliminates. -/
  | always
  deriving DecidableEq, Repr

structure Config where
  /-- Unit of the restart sequence, in conflicts. -/
  restartBase : Nat := 100
  /-- Decay of variable scores: the bump grows by the reciprocal at each conflict. -/
  varDecay : Float := 0.95
  /-- Decay of clause activities, in the same sense. -/
  clauseDecay : Float := 0.999
  /-- Learnt clauses allowed at the start of a search, per problem clause. -/
  learntRatio : Float := 1.0 / 3.0
  /-- Longest resolvent that elimination may produce. -/
  resolventLimit : Nat := 20
  /-- Variables in more clauses than this are not eliminated. -/
  occurrenceLimit : Nat := 64
  strategy : Strategy := .once

instance : Inhabited Config := ⟨{}⟩

end IncrementalSat
