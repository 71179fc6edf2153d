/-!
# DIMACS texts

A formula in conjunctive normal form as a text: a header with the numbers of variables and of
clauses, then a line for each clause, its signed literals each followed by a blank, and a zero.
-/
namespace IncrementalSat

structure Dimacs where
  numVars : Nat
  clauses : List (List Int32)
  deriving DecidableEq, Repr

namespace Dimacs

def renderHeader (d : Dimacs) : String :=
  "p cnf " ++ d.numVars.repr ++ " " ++ d.clauses.length.repr ++ "\n"

def renderClause (clause : List Int32) : String :=
  String.join (clause.map fun l => l.toInt.repr ++ " ") ++ "0\n"

def render (d : Dimacs) : String := d.renderHeader ++ String.join (d.clauses.map renderClause)

end Dimacs

end IncrementalSat
