import IncrementalSat.Branching.Score
import IncrementalSat.Fault

/-!
# Variable heap

A binary max-heap of all variables, ordered by score. Its slots hold every variable once, and each
variable knows its slot. Scores are kept by variable, so a slot stands for the pair of a variable and
its score, and exchanging two slots exchanges the pairs. Only a leading part of the slots, of length
`size`, is the heap proper: extracting the maximum moves it to the end of that part and shrinks the part
by one, so extracted variables keep their scores and can be restored one by one in the opposite order.
-/
namespace IncrementalSat

structure VarHeap (n : Nat) where
  /-- The score of each variable, whatever its slot. -/
  score : Vector Float n
  /-- The slot of each variable. -/
  position : Vector (Fin n) n
  /-- The variables in heap order. -/
  slots : Vector (Fin n) n
  /-- Length of the leading part that is the heap. -/
  size : Nat
  size_le : size ≤ n

namespace VarHeap

variable {n : Nat}

def empty : VarHeap 0 := ⟨#v[], #v[], #v[], 0, Nat.le_refl 0⟩

/-- The score of the variable in a slot. -/
def scoreAt (h : VarHeap n) (p : Fin n) : Float := h.score.get (h.slots.get p)

/-- Exchanges the variables of two slots. -/
def swap (h : VarHeap n) (p q : Fin n) : VarHeap n :=
  { h with
    position := h.position.swap (h.slots.get p) (h.slots.get q)
    slots := h.slots.swap p q }

@[simp] theorem swap_size (h : VarHeap n) (p q : Fin n) : (h.swap p q).size = h.size := rfl

@[simp] theorem swap_score (h : VarHeap n) (p q : Fin n) : (h.swap p q).score = h.score := rfl

/-- Moves the variable of a slot towards the root while it beats its parent. -/
def siftUp (h : VarHeap n) (p : Fin n) : VarHeap n :=
  if hp : p.val = 0 then h
  else
    let parent : Fin n := ⟨(p.val - 1) / 2, by omega⟩
    if Score.le (h.scoreAt p) (h.scoreAt parent) then h else (h.swap p parent).siftUp parent
  termination_by p.val
  decreasing_by omega

/-- The better of a slot and one of its children, if the heap reaches that child. -/
def betterChild (h : VarHeap n) (best : Fin n) (child : Nat) : Fin n :=
  if hc : child < h.size then
    let c : Fin n := ⟨child, Nat.lt_of_lt_of_le hc h.size_le⟩
    if Score.lt (h.scoreAt best) (h.scoreAt c) then c else best
  else best

theorem betterChild_eq (h : VarHeap n) (best : Fin n) (child : Nat) :
    h.betterChild best child = best ∨ (h.betterChild best child).val = child := by
  unfold betterChild
  split
  · dsimp only
    split
    · exact .inr rfl
    · exact .inl rfl
  · exact .inl rfl

/-- The best of a slot and its two children. -/
def bestOfFamily (h : VarHeap n) (p : Fin n) : Fin n :=
  h.betterChild (h.betterChild p (2 * p.val + 1)) (2 * p.val + 2)

theorem bestOfFamily_eq (h : VarHeap n) (p : Fin n) :
    h.bestOfFamily p = p ∨ p.val < (h.bestOfFamily p).val := by
  unfold bestOfFamily
  rcases h.betterChild_eq (h.betterChild p (2 * p.val + 1)) (2 * p.val + 2) with e | e
  · rw [e]
    rcases h.betterChild_eq p (2 * p.val + 1) with e' | e'
    · exact .inl e'
    · exact .inr (by omega)
  · exact .inr (by omega)

/-- Moves the variable of a slot away from the root while a child beats it. -/
def siftDown (h : VarHeap n) (p : Fin n) : VarHeap n :=
  if hb : h.bestOfFamily p = p then h
  else
    have : p.val < (h.bestOfFamily p).val := (h.bestOfFamily_eq p).resolve_left hb
    (h.swap p (h.bestOfFamily p)).siftDown (h.bestOfFamily p)
  termination_by n - p.val

/-- Changes a score and moves the variable to a slot that fits it. -/
def setScore (h : VarHeap n) (v : Fin n) (x : Float) : VarHeap n :=
  let h : VarHeap n := { h with score := h.score.set v x v.isLt }
  let p : Fin n := h.position.get v
  if p.val < h.size then (h.siftUp p).siftDown p else h

/-- Applies a function to every score. It has to be monotone. -/
def mapScores (h : VarHeap n) (f : Float → Float) : VarHeap n := { h with score := h.score.map f }

/-- Adds the next variable with a score. Every variable must be in the heap. -/
def push (h : VarHeap n) (x : Float) : Checked (VarHeap (n + 1)) :=
  if h.size = n then
    let h' : VarHeap (n + 1) :=
      { score := h.score.push x
        position := (h.position.map Fin.castSucc).push (Fin.last n)
        slots := (h.slots.map Fin.castSucc).push (Fin.last n)
        size := h.size + 1
        size_le := Nat.succ_le_succ h.size_le }
    .ok (h'.siftUp (Fin.last n))
  else .error .heapIncomplete

/-- The variable of the greatest score. -/
def max? (h : VarHeap n) : Option (Fin n) :=
  if hs : h.size = 0 then none
  else
    let root : Fin n := ⟨0, Nat.lt_of_lt_of_le (Nat.pos_of_ne_zero hs) h.size_le⟩
    some (h.slots.get root)

theorem siftUp_size (h : VarHeap n) (p : Fin n) : (h.siftUp p).size = h.size := by
  fun_induction siftUp h p <;> simp_all

theorem siftDown_size (h : VarHeap n) (p : Fin n) : (h.siftDown p).size = h.size := by
  fun_induction siftDown h p <;> simp_all

/-- Takes the variable of the greatest score out of the heap. -/
def extract (h : VarHeap n) : VarHeap n :=
  if hs : h.size = 0 then h
  else
    have hn := h.size_le
    let root : Fin n := ⟨0, by omega⟩
    let last : Fin n := ⟨h.size - 1, by omega⟩
    { h.swap root last with size := h.size - 1, size_le := by omega }.siftDown root

theorem extract_size (h : VarHeap n) : h.extract.size = h.size - 1 := by
  unfold extract
  split
  · omega
  · rw [siftDown_size]

theorem extract_size_lt (h : VarHeap n) {v : Fin n} (hm : h.max? = some v) :
    h.extract.size < h.size := by
  rw [extract_size]
  have : h.size ≠ 0 := by
    intro hs
    simp [max?, hs] at hm
  omega

/-- Puts the variable extracted last back into the heap. -/
def restore (h : VarHeap n) : VarHeap n :=
  if hs : h.size < n then
    { h with size := h.size + 1, size_le := hs }.siftUp ⟨h.size, hs⟩
  else h

theorem restore_size (h : VarHeap n) (hs : h.size < n) : h.restore.size = h.size + 1 := by
  simp [restore, hs, siftUp_size]

/-- Puts every extracted variable back. -/
def restoreAll (h : VarHeap n) : VarHeap n :=
  if hs : h.size < n then
    have := h.restore_size hs
    h.restore.restoreAll
  else h
  termination_by n - h.size

/-- Extracts variables until the one of the greatest score is eligible. -/
def skipTo (eligible : Fin n → Bool) (h : VarHeap n) : VarHeap n :=
  match hm : h.max? with
  | none => h
  | some v =>
    have : h.extract.size < h.size := h.extract_size_lt hm
    if eligible v then h else h.extract.skipTo eligible
  termination_by h.size

/-- The eligible variable of the greatest score, and the heap with every variable in it. -/
def choose (h : VarHeap n) (eligible : Fin n → Bool) : Option (Fin n) × VarHeap n :=
  let skipped := h.skipTo eligible
  (skipped.max?, skipped.restoreAll)

end VarHeap

end IncrementalSat
