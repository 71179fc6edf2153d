import IncrementalSat.Propagator.Propagation

/-!
# Adding clauses

A clause is added as the set of its literals, in the order of their codes. A clause that contains a
literal with its negation, or a literal that is already true for good, changes nothing. Literals
that are false for good are left out. What remains is a contradiction, a fact that is propagated at
once, or a clause for the store.

Clauses come with literals over an open-ended supply of variables. A variable has to be allocated
once the value of its literal is asked for, and no earlier: the variables of a clause that contains
a literal with its negation are never looked up, and neither are those behind a true literal.
-/
namespace IncrementalSat

namespace Literal

/-- Inserts a literal into a list ordered by code, unless it is there already. -/
def insert (l : Literal Nat) : List (Literal Nat) → List (Literal Nat)
  | [] => [l]
  | m :: ms =>
    if l.code < m.code then l :: m :: ms
    else if l.code = m.code then m :: ms
    else m :: insert l ms

/-- The literals of a list, each once, ordered by code. -/
def normalize (ls : List (Literal Nat)) : List (Literal Nat) := ls.foldr insert []

/-- Whether two neighbours are opposite literals. -/
def hasOppositeNeighbours : List (Literal Nat) → Bool
  | l :: m :: ls => l == m.neg || hasOppositeNeighbours (m :: ls)
  | _ => false

end Literal

/-- The literals of a clause that are not false; none at all if one of them is true. -/
def Trail.residue {n : Nat} (t : Trail n) : List (Literal Nat) → Checked (Option (List (Lit n)))
  | [] => .ok (some [])
  | l :: ls => do
    let l ← Lit.lookup n l
    match t.eval l with
    | some true => pure none
    | some false => t.residue ls
    | none =>
      let rest ← t.residue ls
      pure (rest.map (l :: ·))

namespace Propagator

variable {n : Nat}

/-- Fixes a literal for good and propagates it. Answers whether no contradiction is known. -/
def addFact (p : Propagator n) (l : Lit n) : Checked (Bool × Propagator n) := do
  let (conflict, p) ← (p.assign l .root).propagate
  pure (conflict.isNone, { p with consistent := conflict.isNone })

/-- Adds what remains of a clause. Answers whether no contradiction is known. -/
def addResidue (p : Propagator n) : List (Lit n) → Checked (Bool × Propagator n)
  | [] => .ok (false, { p with consistent := false })
  | [l] => p.addFact l
  | l :: m :: ls => .ok (true, p.attach { first := l, second := m, rest := ls, learnt := false })

/-- Adds a problem clause. Answers whether no contradiction is known. -/
def addClause (p : Propagator n) (lits : List (Literal Nat)) :
    Checked (Bool × Propagator n) := do
  p.requireRoot
  if !p.consistent then pure (false, p)
  else if Literal.hasOppositeNeighbours (Literal.normalize lits) then pure (true, p)
  else
    let rest ← p.trail.residue (Literal.normalize lits)
    match rest with
    | none => pure (true, p)
    | some rest => p.addResidue rest

end Propagator

end IncrementalSat
