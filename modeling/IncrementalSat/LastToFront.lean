/-!
# Filling a gap with the last element

When an element is dropped from the front of a list and its place goes to the last element, the
rest of the list is rotated by one.
-/
namespace IncrementalSat

/-- Moves the last element to the front. -/
def lastToFront {α : Type} : List α → List α
  | [] => []
  | a :: l => (a :: l).getLast (List.cons_ne_nil a l) :: (a :: l).dropLast

@[simp] theorem length_lastToFront {α : Type} (l : List α) :
    (lastToFront l).length = l.length := by
  cases l <;> simp [lastToFront]

/-- No element is lost or gained. -/
theorem lastToFront_perm {α : Type} (l : List α) : (lastToFront l).Perm l := by
  cases l with
  | nil => exact .refl _
  | cons a l =>
    have h : (lastToFront (a :: l)).Perm ((a :: l).dropLast ++ [(a :: l).getLast (by simp)]) :=
      (List.perm_append_singleton _ _).symm
    rwa [List.dropLast_concat_getLast] at h

end IncrementalSat
