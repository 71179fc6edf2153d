import IncrementalSat.Engine.Basic

/-!
# Variable elimination

A variable is eliminated by replacing the problem clauses it occurs in by their resolvents on it,
unless there would be more of them than clauses, or one would be too long. Learnt clauses on the
variable go as well. Candidates are tried in the order of the number of pairs of clauses to be
resolved, as it was at the start; the clauses each occurs in are looked up when its turn comes, so
that the resolvents of earlier eliminations count.

The removed clauses are kept. Undoing the eliminations of a model, latest first, gives each
eliminated variable the value that its removed clauses need.
-/
namespace IncrementalSat

/-! ## Resolvents -/

namespace Elimination

variable {n : Nat}

/-- Adds the literals of one clause to those of another, leaving out a variable and repetitions.
There is no result if two literals are opposite. -/
def joinWithout (v : Fin n) : List (Lit n) → List (Lit n) → Option (List (Lit n))
  | joined, [] => some joined
  | joined, l :: ls =>
    if l.var = v ∨ l ∈ joined then joinWithout v joined ls
    else if l.neg ∈ joined then none
    else joinWithout v (joined ++ [l]) ls

/-- The resolvent of two clauses on a variable, unless it holds a literal with its negation. -/
def resolvent? (a b : List (Lit n)) (v : Fin n) : Option (List (Lit n)) :=
  joinWithout v (a.filter fun l => l.var != v) b

/-- The resolvents of pairs of clauses, after those found so far. There is no result if one is
longer than `maxLength` or if there are more than `maxCount`. -/
def resolvents? (v : Fin n) (maxCount maxLength : Nat) (found : List (List (Lit n))) :
    List (List (Lit n) × List (Lit n)) → Option (List (List (Lit n)))
  | [] => some found
  | (a, b) :: pairs =>
    match resolvent? a b v with
    | none => resolvents? v maxCount maxLength found pairs
    | some r =>
      if found.length = maxCount ∨ maxLength < r.length then none
      else resolvents? v maxCount maxLength (found ++ [r]) pairs

/-! ## Models -/

/-- Whether a literal holds in a model. -/
def holdsIn (model : Vector Truth n) (l : Lit n) : Bool :=
  model.get l.var == (if l.positive then .holds else .fails)

/-- Whether a removed clause holds only if the eliminated variable does. -/
def needsTrue (e : Elimination n) (model : Vector Truth n) : Bool :=
  e.clauses.any fun c =>
    c.contains ⟨e.var, true⟩ && !c.any fun l => l.var != e.var && holdsIn model l

/-- Gives the eliminated variable the value that its removed clauses need. -/
def undo (e : Elimination n) (model : Vector Truth n) : Vector Truth n :=
  model.set e.var (.ofBool (e.needsTrue model))

end Elimination

/-! ## Occurrences -/

/-- The indices of clauses by literal. -/
abbrev Occurrences (n : Nat) := LitMap n (Array Nat)

namespace Occurrences

variable {n : Nat}

/-- Records the clause `i` under each of its literals. -/
def record (occurs : Occurrences n) (i : Nat) (lits : List (Lit n)) : Occurrences n :=
  lits.foldl (fun m l => m.push l i) occurs

/-- The occurrences in the clauses of one kind. -/
def ofStore (store : ClauseStore n) (learnt : Bool) : Occurrences n :=
  store.live.foldl
    (fun occurs (i, c) => if c.learnt == learnt then record occurs i c.lits else occurs)
    (.replicate n #[])

/-- The number of pairs of clauses that can be resolved on a variable. -/
def pairs (occurs : Occurrences n) (v : Fin n) : Nat :=
  (occurs.get ⟨v, true⟩).size * (occurs.get ⟨v, false⟩).size

/-- The indices under a literal that still lead to a clause. -/
def liveAt (occurs : Occurrences n) (store : ClauseStore n) (l : Lit n) : List Nat :=
  (occurs.get l).toList.filter store.isLive

/-- Finds the indices under a literal that still lead to a clause. Each index has to be in use. -/
def lookUp (occurs : Occurrences n) (store : ClauseStore n) (l : Lit n) : Checked (List Nat) :=
  if (occurs.get l).all (· < store.size) then .ok (occurs.liveAt store l)
  else .error .clauseOutOfRange

end Occurrences

namespace Propagator

variable {n : Nat}

/-- The literals of the clauses at some indices. -/
def fetchAll (p : Propagator n) : List Nat → Checked (List (List (Lit n)))
  | [] => .ok []
  | i :: is => do
    let c ← p.store.fetch i
    let cs ← p.fetchAll is
    pure (c.lits :: cs)

/-- Adds resolvents, and records where the new clauses occur. Stops at a contradiction. -/
def addResolvents : List (List (Lit n)) → Occurrences n → Propagator n →
    Checked (Bool × Occurrences n × Propagator n)
  | [], occurs, p => .ok (true, occurs, p)
  | r :: rs, occurs, p => do
    let i := p.store.size
    let (consistent, p) ← p.addClause (r.map Lit.toLiteral)
    if !consistent then pure (false, occurs, p)
    else if p.store.size ≤ i then addResolvents rs occurs p
    else
      let c ← p.store.fetch i
      addResolvents rs (occurs.record i c.lits) p

end Propagator

/-! ## Eliminating -/

namespace Engine

variable {n : Nat}

/-- Whether elimination may try a variable. -/
def isCandidate (e : Engine n) (v : Fin n) : Bool :=
  !e.isFrozen v && !e.isEliminated v && (e.trail.valueOf v).isNone

/-- The variables that elimination tries, in order. -/
def candidates (e : Engine n) (occurs : Occurrences n) : List (Fin n) :=
  StableSort.sort (fun v w => occurs.pairs v ≤ occurs.pairs w)
    ((List.finRange n).filter e.isCandidate)

/-- Marks a variable as eliminated and keeps the clauses removed with it. -/
def recordElimination (e : Engine n) (v : Fin n) (clauses : List (List (Lit n))) : Engine n :=
  { e with
    eliminations := ⟨v, clauses⟩ :: e.eliminations
    marks.eliminated := e.marks.eliminated.set v true v.isLt
    marks.decision := e.marks.decision.set v false v.isLt }

/-- Eliminates a variable: its clauses, found at some indices, give way to the resolvents. -/
def eliminateVar (e : Engine n) (v : Fin n) (occurs learntOccurs : Occurrences n)
    (indices : List Nat) (clauses resolvents : List (List (Lit n))) :
    Checked (Bool × Occurrences n × Engine n) := do
  let p ← e.toPropagator.removeAll indices
  let positive ← learntOccurs.lookUp p.store ⟨v, true⟩
  let negative ← learntOccurs.lookUp p.store ⟨v, false⟩
  let p ← p.removeAll (positive ++ negative)
  let (consistent, occurs, p) ← p.addResolvents resolvents occurs
  pure (consistent, occurs, { e with toPropagator := p }.recordElimination v clauses)

/-- Eliminates a variable if it has no value yet, occurs, and elimination stays within bounds. -/
def tryEliminate (e : Engine n) (v : Fin n) (occurs learntOccurs : Occurrences n) :
    Checked (Bool × Occurrences n × Engine n) := do
  if (e.trail.valueOf v).isSome then pure (true, occurs, e)
  else
    let positive ← occurs.lookUp e.store ⟨v, true⟩
    let negative ← occurs.lookUp e.store ⟨v, false⟩
    let count := positive.length + negative.length
    if count = 0 ∨ e.config.occurrenceLimit < count then pure (true, occurs, e)
    else
      let as ← e.fetchAll positive
      let bs ← e.fetchAll negative
      let pairs := as.flatMap fun a => bs.map fun b => (a, b)
      match Elimination.resolvents? v count e.config.resolventLimit [] pairs with
      | none => pure (true, occurs, e)
      | some resolvents =>
        e.eliminateVar v occurs learntOccurs (positive ++ negative) (as ++ bs) resolvents

/-- Tries to eliminate variables one after the other. Stops at a contradiction. -/
def eliminateEach (learntOccurs : Occurrences n) :
    List (Fin n) → Occurrences n → Engine n → Checked (Bool × Engine n)
  | [], _, e => .ok (true, e)
  | v :: vs, occurs, e => do
    let (consistent, occurs, e) ← e.tryEliminate v occurs learntOccurs
    if consistent then eliminateEach learntOccurs vs occurs e else pure (false, e)

/-- Eliminates what can be eliminated. Answers whether no contradiction was derived. -/
def eliminateVars (e : Engine n) : Checked (Bool × Engine n) :=
  let occurs := Occurrences.ofStore e.store false
  eliminateEach (.ofStore e.store true) (e.candidates occurs) occurs e

/-- Simplifies and, unless that was turned off, eliminates variables. If the elimination is
reached, `turnOff` turns it off for later. -/
def eliminate (e : Engine n) (turnOff : Bool) : Checked (Bool × Engine n) := do
  let (consistent, e) ← e.simplify
  if !consistent then pure (false, e)
  else if !e.eliminates then pure (true, e)
  else
    let (consistent, e) ← e.eliminateVars
    pure (consistent, if turnOff then e.stopEliminating else e)

end Engine

end IncrementalSat
