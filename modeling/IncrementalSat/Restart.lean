/-!
# Restarts

A search restarts after as many conflicts as the next term of the Luby sequence
`1, 1, 2, 1, 1, 2, 4, …` says, in units of a base. Two registers generate the sequence: `v` is the
current term, and it doubles until it is the greatest power of two that divides `u`; then `u` moves
on by one and `v` starts again at one.
-/
namespace IncrementalSat

structure LubyRegisters where
  u : Nat := 1
  v : Nat := 1
  deriving DecidableEq, Repr

namespace LubyRegisters

/-- The greatest power of two that divides `u` is `v`, itself a power of two that divides `u`. -/
def exhausted (r : LubyRegisters) : Bool := r.u % (2 * r.v) == r.v

def next (r : LubyRegisters) : LubyRegisters :=
  if r.exhausted then ⟨r.u + 1, 1⟩ else ⟨r.u, 2 * r.v⟩

end LubyRegisters

/-- Conflicts counted against the sequence. -/
structure Restarts where
  base : Nat
  conflicts : Nat := 0
  registers : LubyRegisters := {}
  deriving DecidableEq, Repr

namespace Restarts

/-- A base of zero counts as one. -/
def ofBase (base : Nat) : Restarts := { base := max base 1 }

def onConflict (r : Restarts) : Restarts := { r with conflicts := r.conflicts + 1 }

/-- Conflicts after which the next restart is due: a term of the sequence in units of the base. An interval
is no longer than the base or all intervals before it, so a word that counts the conflicts holds the
product as well. -/
def limit (r : Restarts) : Nat := r.base * r.registers.v

/-- Whether a restart is due; if so, the next interval starts right away. -/
def due (r : Restarts) : Bool × Restarts :=
  if r.limit ≤ r.conflicts then (true, { r with conflicts := 0, registers := r.registers.next })
  else (false, r)

end Restarts

end IncrementalSat
