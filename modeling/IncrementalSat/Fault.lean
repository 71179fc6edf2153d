/-!
# Faults

A fault is a failure inside the engine: an index that leads nowhere, a count that would drop below
zero, a structural assumption that does not hold. No input is supposed to cause one. Engine
operations are `Checked` computations, so that "no fault occurs" is a statement about their results.
-/
namespace IncrementalSat

inductive Fault where
  /-- A variable that is not allocated. -/
  | variableUnallocated
  /-- A clause index beyond the end of the store. -/
  | clauseOutOfRange
  /-- A clause index whose clause was removed. -/
  | clauseRemoved
  /-- A clause of fewer than two literals. -/
  | clauseTooShort
  /-- A clause counter below zero. -/
  | counterUnderflow
  /-- A watch list entry for a clause that does not watch the literal. -/
  | watchMisplaced
  /-- A clause that would watch one literal twice. -/
  | watchRepeated
  /-- A watch list that would hold one clause twice. -/
  | watchDuplicated
  /-- A level above the root where the root level is required. -/
  | levelOpen
  /-- A trail position beyond the end of the trail. -/
  | trailOutOfRange
  /-- A conflict analysis that went past the start of the trail. -/
  | trailExhausted
  /-- A conflict analysis that counted more literals than it met. -/
  | pendingUnderflow
  /-- An implied literal without a clause that implies it. -/
  | reasonMissing
  /-- A heap that gains a variable while others are extracted. -/
  | heapIncomplete
  /-- A variable beyond the last signed literal. -/
  | tooManyVariables
  /-- A loop that used up its bound. -/
  | boundExceeded
  deriving DecidableEq, Repr

/-- A computation that may run into a fault. -/
abbrev Checked := Except Fault

end IncrementalSat
