import IncrementalSat.Literal

/-!
# Tables indexed by literals

One entry for each literal over `n` variables, kept as two tables indexed by variables.
-/
namespace IncrementalSat

structure LitMap (n : Nat) (α : Type) where
  positive : Vector α n
  negative : Vector α n

namespace LitMap

variable {n : Nat} {α : Type}

def replicate (n : Nat) (a : α) : LitMap n α := ⟨.replicate n a, .replicate n a⟩

def get (m : LitMap n α) (l : Lit n) : α :=
  if l.positive then m.positive[l.var] else m.negative[l.var]

def set (m : LitMap n α) (l : Lit n) (a : α) : LitMap n α :=
  if l.positive then { m with positive := m.positive.set l.var a }
  else { m with negative := m.negative.set l.var a }

/-- Adds the two entries of one more variable. -/
def grow (m : LitMap n α) (a : α) : LitMap (n + 1) α := ⟨m.positive.push a, m.negative.push a⟩

/-- Appends an element to the array of a literal. -/
def push (m : LitMap n (Array α)) (l : Lit n) (a : α) : LitMap n (Array α) :=
  m.set l ((m.get l).push a)

theorem get_set (m : LitMap n α) (l k : Lit n) (a : α) :
    (m.set l a).get k = if l = k then a else m.get k := by
  obtain ⟨v, p⟩ := l
  obtain ⟨w, q⟩ := k
  cases p <;> cases q <;>
    simp [get, set, Vector.getElem_set, Fin.ext_iff]

end LitMap

end IncrementalSat
