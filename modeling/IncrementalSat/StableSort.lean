/-!
# Sorting by insertion

A sort that keeps the order of elements none of which is before the other. It inserts one element
after the other, the last one first, each in front of the elements it need not follow.
-/
namespace IncrementalSat

namespace StableSort

variable {α : Type}

/-- Inserts an element in front of the first one that may follow it. -/
def insert (le : α → α → Bool) (a : α) : List α → List α
  | [] => [a]
  | b :: l => if le a b then a :: b :: l else b :: insert le a l

def sort (le : α → α → Bool) (l : List α) : List α := l.foldr (insert le) []

theorem insert_perm (le : α → α → Bool) (a : α) (l : List α) :
    (insert le a l).Perm (a :: l) := by
  induction l with
  | nil => exact .refl _
  | cons b l ih =>
    unfold insert
    split
    · exact .refl _
    · exact (ih.cons b).trans (.swap a b l)

theorem sort_perm (le : α → α → Bool) (l : List α) : (sort le l).Perm l := by
  induction l with
  | nil => exact .refl _
  | cons a l ih => exact (insert_perm le a _).trans (ih.cons a)

end StableSort

end IncrementalSat
