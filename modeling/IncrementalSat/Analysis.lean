import IncrementalSat.Branching.Order
import IncrementalSat.Clause.Store
import IncrementalSat.LastToFront
import IncrementalSat.Trail

/-!
# Conflict analysis

From a false clause, resolution along the trail with the reasons of its literals leads to a clause
with a single literal of the current level: its first unique implication point. Literals of lower
levels are collected on the way and shortened to those that the others do not imply already. The
clause that is learnt asserts the negation of the implication point after a jump back to the
highest level among its other literals.

The trail stays as it is. What changes is the activity of clauses, the branching order, and the
marks on the variables met, all of which are clear again at the end.
-/
namespace IncrementalSat

/-- A learnt clause and the level to jump back to. The first of the other literals, if there are
any, is of that level. -/
structure Backjump (n : Nat) where
  asserting : Lit n
  others : List (Lit n)
  level : Nat
  deriving DecidableEq, Repr

/-- An analysis under way. -/
structure Analysis (n : Nat) where
  store : ClauseStore n
  order : BranchingOrder n
  /-- The variables that were met and not yet resolved. -/
  seen : Vector Bool n
  /-- The literals of lower levels collected so far. -/
  lower : Array (Lit n)
  /-- How many marked variables are of the current level. -/
  pending : Nat

namespace Trail

variable {n : Nat}

/-- The level of a literal, zero if it is not assigned. -/
def depth (t : Trail n) (l : Lit n) : Nat := (t.levelOf l.var).getD 0

/-- The position and the depth of the last deepest literal, given the best ones found before the
position `i`. -/
def lastDeepest (t : Trail n) : List (Lit n) → (i : Nat) → (best : Nat × Nat) → Nat × Nat
  | [], _, best => best
  | l :: ls, i, best =>
    t.lastDeepest ls (i + 1) (if best.2 ≤ t.depth l then (i, t.depth l) else best)

end Trail

namespace Analysis

variable {n : Nat}

/-- Meets a false literal: marks its variable, unless it is marked or at level zero. -/
def meet (t : Trail n) (a : Analysis n) (l : Lit n) : Analysis n :=
  if a.seen.get l.var || t.depth l = 0 then a
  else
    let a := { a with seen := a.seen.set l.var true l.var_lt, order := a.order.touch l.var }
    if t.level ≤ t.depth l then { a with pending := a.pending + 1 }
    else { a with lower := a.lower.push l }

/-- Meets the literals of the clause `i`, except the one it implied. -/
def meetClause (t : Trail n) (implied : Option (Lit n)) (a : Analysis n) (i : Nat) :
    Checked (Analysis n) := do
  let store ← a.store.touch i
  let c ← store.fetch i
  pure (c.lits.foldl (fun a l => if implied = some l then a else a.meet t l) { a with store })

/-- Walks the trail down from a position. Each marked literal is unmarked; the last one pending is
the implication point, and any other is resolved with its reason. -/
def walk (t : Trail n) : Nat → Analysis n → Checked (Lit n × Analysis n)
  | 0, _ => .error .trailExhausted
  | position + 1, a =>
    match t.lits[position]? with
    | none => .error .trailOutOfRange
    | some l =>
      if !a.seen.get l.var then walk t position a
      else
        let a := { a with seen := a.seen.set l.var false l.var_lt }
        match a.pending with
        | 0 => .error .pendingUnderflow
        | 1 => .ok (l.neg, { a with pending := 0 })
        | k + 2 =>
          match t.reasonOf l.var with
          | some (.clause i) => do
            let a ← meetClause t (some l) { a with pending := k + 1 } i
            walk t position a
          | _ => .error .reasonMissing

/-- Whether a collected literal follows from other literals that are marked or fixed, by the clause
that implied it. -/
def isRedundant (t : Trail n) (a : Analysis n) (l : Lit n) : Checked Bool :=
  match t.reasonOf l.var with
  | some (.clause i) => do
    let c ← a.store.fetch i
    pure (c.lits.all fun m => m.var == l.var || a.seen.get m.var || t.levelOf m.var == some 0)
  | _ => .ok false

/-- Drops the redundant literals. The place of a dropped literal goes to the last one. -/
def minimize (t : Trail n) (a : Analysis n) (kept : Array (Lit n)) :
    List (Lit n) → Checked (Array (Lit n))
  | [] => .ok kept
  | l :: pending => do
    let redundant ← a.isRedundant t l
    if redundant then minimize t a kept (lastToFront pending)
    else minimize t a (kept.push l) pending
  termination_by pending => pending.length

/-- Unmarks the collected literals, and lets the bumps of variables and clauses grow. -/
def finish (a : Analysis n) : Analysis n :=
  { a with
    seen := a.lower.foldl (fun seen l => seen.set l.var false l.var_lt) a.seen
    order := a.order.advance
    store := a.store.advance }

/-- The clause to learn from the clause `conflict`, which is false at a level above zero. -/
def run (t : Trail n) (a : Analysis n) (conflict : Nat) : Checked (Backjump n × Analysis n) := do
  let a ← a.meetClause t none conflict
  let (asserting, a) ← a.walk t t.size
  let kept ← a.minimize t #[] a.lower.toList
  let (i, level) := t.lastDeepest kept.toList 0 (0, 0)
  pure (⟨asserting, (kept.swapIfInBounds 0 i).toList, level⟩, a.finish)

end Analysis

end IncrementalSat
