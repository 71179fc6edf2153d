import IncrementalSat.Literal

/-!
# Formulas

A clause is a list of literals, read as their disjunction, and a formula a list of clauses, read as
their conjunction. A partial model is an array of truth values; a variable beyond its end is unset.
-/
namespace IncrementalSat

abbrev Formula := List (List (Literal Nat))

namespace Literal

/-- The truth value of a literal in a partial model. -/
def truthIn (model : Array Truth) (l : Literal Nat) : Truth :=
  let value := model.getD l.var .unset
  if l.positive then value else value.neg

end Literal

namespace Formula

/-- Every clause has a literal that holds in the partial model. -/
def verify (f : Formula) (model : Array Truth) : Bool :=
  f.all fun clause => clause.any fun l => l.truthIn model == .holds

end Formula

end IncrementalSat
