import IncrementalSat.Literal

/-!
# Stored clauses

A stored clause has at least two literals, and the first two are the ones it watches.
-/
namespace IncrementalSat

structure Clause (n : Nat) where
  first : Lit n
  second : Lit n
  rest : List (Lit n)
  learnt : Bool
  /-- How much the clause took part in recent conflicts. -/
  activity : Float := 0.0

namespace Clause

variable {n : Nat}

def lits (c : Clause n) : List (Lit n) := c.first :: c.second :: c.rest

/-- The clause with other literals, if there are enough of them. -/
def withLits? (c : Clause n) : List (Lit n) → Option (Clause n)
  | l :: m :: ls => some { c with first := l, second := m, rest := ls }
  | _ => none

/-- Exchanges the watched literals unless the second one is `l`. -/
def turn (c : Clause n) (l : Lit n) : Clause n :=
  if c.second = l then c else { c with first := c.second, second := c.first }

/-- The clause after one more variable was allocated. -/
def grow (c : Clause n) : Clause (n + 1) :=
  { c with first := c.first.grow, second := c.second.grow, rest := c.rest.map Lit.grow }

end Clause

end IncrementalSat
