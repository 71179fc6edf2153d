import IncrementalSat.Literal
import IncrementalSat.Error

/-!
# Signed literals

Callers write a literal as a signed number: one more than the variable, negated for a negative
literal. Zero is no literal, and neither is the least 32-bit integer, which has no negation.
-/
namespace IncrementalSat

namespace Literal

/-- Reads a signed literal. -/
def ofSigned (s : Int32) : Except Error (Literal Nat) :=
  if s = 0 ∨ s = Int32.minValue then .error (.invalidLiteral s)
  else .ok ⟨s.toInt.natAbs - 1, decide (0 < s)⟩

/-- Writes a literal as a signed number. -/
def toSigned (l : Literal Nat) : Int32 :=
  Int32.ofInt (if l.positive then (l.var + 1 : Int) else -(l.var + 1 : Int))

end Literal

/-- The signed form of a literal of an allocated variable. -/
def Lit.toSigned {n : Nat} (l : Lit n) : Int32 := l.toLiteral.toSigned

end IncrementalSat
