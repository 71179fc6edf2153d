import IncrementalSat.Literal

/-!
# Vectors indexed by variables

What reading an entry finds after each way to build a vector.
-/
namespace IncrementalSat

namespace Vector

variable {α β : Type} {n : Nat}

@[simp] theorem get_set (xs : Vector α n) (v w : Fin n) (x : α) (h : v.val < n) :
    (xs.set v x h).get w = if v = w then x else xs.get w := by
  simp only [Fin.ext_iff]
  exact Vector.getElem_set ..

@[simp] theorem get_push_castSucc (xs : Vector α n) (x : α) (v : Fin n) :
    (xs.push x).get v.castSucc = xs.get v := Vector.getElem_push_lt ..

@[simp] theorem get_push_last (xs : Vector α n) (x : α) : (xs.push x).get (Fin.last n) = x :=
  Vector.getElem_push_last ..

@[simp] theorem get_map (xs : Vector α n) (f : α → β) (v : Fin n) :
    (xs.map f).get v = f (xs.get v) := Vector.getElem_map ..

@[simp] theorem get_ofFn (f : Fin n → α) (v : Fin n) : (Vector.ofFn f).get v = f v :=
  Vector.getElem_ofFn ..

@[simp] theorem get_swap (xs : Vector α n) (v w u : Fin n) (hv : v.val < n) (hw : w.val < n) :
    (xs.swap v w hv hw).get u = if u = v then xs.get w else if u = w then xs.get v else xs.get u := by
  simp only [Fin.ext_iff]
  exact Vector.getElem_swap ..

end Vector

end IncrementalSat
