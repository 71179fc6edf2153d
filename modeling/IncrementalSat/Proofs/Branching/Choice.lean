import IncrementalSat.Branching.Order
import IncrementalSat.Proofs.Vectors
import Mathlib.Data.Vector.Basic

/-!
# What the branching order chooses

The slots of the heap hold every variable, and every operation only exchanges slots. While eligible
variables are looked for, those behind the heap proper are not eligible; so the choice is eligible,
and there is none only if no variable is.
-/
namespace IncrementalSat

namespace VarHeap

variable {n : Nat} {h : VarHeap n} {eligible : Fin n → Bool}

/-- Every variable has a slot. -/
def Lists (h : VarHeap n) : Prop := ∀ v : Fin n, ∃ q : Fin n, h.slots.get q = v

/-- Every variable has a slot within the heap. -/
structure Complete (h : VarHeap n) : Prop where
  lists : h.Lists
  full : h.size = n

/-- The variables behind the heap proper are not eligible. -/
def Skipped (eligible : Fin n → Bool) (h : VarHeap n) : Prop :=
  ∀ q : Fin n, h.size ≤ q → eligible (h.slots.get q) = false

/-! ## Exchanging slots -/

theorem slots_swap (h : VarHeap n) (p q r : Fin n) : (h.swap p q).slots.get r =
    if r = p then h.slots.get q else if r = q then h.slots.get p else h.slots.get r := by
  simp [swap]

theorem Lists.swap (hl : h.Lists) (p q : Fin n) : (h.swap p q).Lists := by
  intro v
  obtain ⟨r, hr⟩ := hl v
  by_cases at_p : r = p
  · refine ⟨q, ?_⟩
    rw [slots_swap]
    by_cases same : q = p
    · simp_all
    · simp_all
  · by_cases at_q : r = q
    · refine ⟨p, ?_⟩
      rw [slots_swap, if_pos rfl, ← at_q, hr]
    · refine ⟨r, ?_⟩
      rw [slots_swap, if_neg at_p, if_neg at_q, hr]

theorem Lists.siftUp (hl : h.Lists) (p : Fin n) : (h.siftUp p).Lists := by
  fun_induction VarHeap.siftUp h p with
  | case1 => exact hl
  | case2 => exact hl
  | case3 h p _ parent _ ih => exact ih (hl.swap p parent)

theorem Lists.siftDown (hl : h.Lists) (p : Fin n) : (h.siftDown p).Lists := by
  fun_induction VarHeap.siftDown h p with
  | case1 => exact hl
  | case2 h p _ _ ih => exact ih (hl.swap p _)

/-- A child that is better than its parent is within the heap. -/
theorem betterChild_lt (h : VarHeap n) (best : Fin n) (child : Nat) :
    h.betterChild best child = best ∨ (h.betterChild best child).val < h.size := by
  unfold betterChild
  split
  · next reached =>
    dsimp only
    split
    · exact .inr reached
    · exact .inl rfl
  · exact .inl rfl

theorem bestOfFamily_lt (h : VarHeap n) {p : Fin n} (moved : h.bestOfFamily p ≠ p) :
    (h.bestOfFamily p).val < h.size := by
  unfold bestOfFamily at moved ⊢
  rcases h.betterChild_lt (h.betterChild p (2 * p.val + 1)) (2 * p.val + 2) with same | inside
  · rw [same] at moved ⊢
    exact (h.betterChild_lt p _).resolve_left moved
  · exact inside

/-- Moving a variable down leaves the slots behind the heap alone. -/
theorem slots_siftDown_of_le (h : VarHeap n) (p q : Fin n) (behind : h.size ≤ q) :
    (h.siftDown p).slots.get q = h.slots.get q := by
  fun_induction VarHeap.siftDown h p with
  | case1 => rfl
  | case2 h p moved below ih =>
    have inside := h.bestOfFamily_lt moved
    have not_p : q ≠ p := by
      rintro rfl
      omega
    have not_best : q ≠ h.bestOfFamily p := by
      intro same
      rw [same] at behind
      omega
    rw [ih behind, slots_swap, if_neg not_p, if_neg not_best]

/-! ## Extracting and restoring -/

/-- Extracting from a heap that is not empty exchanges its first and last slots, and shrinks it. -/
theorem slots_extract_of_le (h : VarHeap n) (positive : h.size ≠ 0) (q : Fin n)
    (behind : h.size - 1 ≤ q) : h.extract.slots.get q =
      (h.swap ⟨0, by have := h.size_le; omega⟩ ⟨h.size - 1, by have := h.size_le; omega⟩).slots.get q := by
  rw [VarHeap.extract, dif_neg positive]
  exact slots_siftDown_of_le _ _ q behind

theorem Lists.extract (hl : h.Lists) : h.extract.Lists := by
  unfold VarHeap.extract
  split
  · exact hl
  · exact Lists.siftDown (h := { h.swap _ _ with size := h.size - 1, size_le := _ }) (hl.swap _ _) _

/-- Extracting a variable that is not eligible leaves only such variables behind the heap. -/
theorem Skipped.extract (hs : Skipped eligible h) {v : Fin n} (root : h.max? = some v)
    (refused : eligible v = false) : Skipped eligible h.extract := by
  intro q behind
  rw [extract_size] at behind
  unfold VarHeap.max? at root
  split at root
  · cases root
  · next positive =>
    have bound := h.size_le
    rw [Option.some.injEq] at root
    rw [slots_extract_of_le h positive q behind, slots_swap]
    split
    · next first =>
      have single : h.size - 1 = 0 := by
        have := congrArg Fin.val first
        simp only at this
        omega
      simp only [single]
      rwa [root]
    · split
      · rwa [root]
      · next not_last =>
        refine hs q ?_
        by_contra inside
        exact not_last (Fin.ext (by simp only; omega))

/-! ## Choosing -/

theorem Lists.skipTo (hl : h.Lists) : (h.skipTo eligible).Lists := by
  fun_induction VarHeap.skipTo eligible h with
  | case1 => exact hl
  | case2 => exact hl
  | case3 h v _ _ _ ih => exact ih hl.extract

/-- After the search the root is eligible, and everything behind the heap is not. -/
theorem Skipped.skipTo (hs : Skipped eligible h) : Skipped eligible (h.skipTo eligible) ∧
    ∀ v, (h.skipTo eligible).max? = some v → eligible v = true := by
  fun_induction VarHeap.skipTo eligible h with
  | case1 h none =>
    refine ⟨hs, fun v found => ?_⟩
    rw [none] at found
    cases found
  | case2 h v root _ ok =>
    refine ⟨hs, fun w found => ?_⟩
    rw [root, Option.some.injEq] at found
    exact found ▸ ok
  | case3 h v root _ refused ih => exact ih (hs.extract root (by simpa using refused))

theorem Lists.restore (hl : h.Lists) : h.restore.Lists := by
  unfold VarHeap.restore
  split
  · next room =>
    exact Lists.siftUp (h := { h with size := h.size + 1, size_le := room }) hl _
  · exact hl

theorem Lists.restoreAll (hl : h.Lists) : h.restoreAll.Complete := by
  fun_induction VarHeap.restoreAll h with
  | case1 h _ _ ih => exact ih hl.restore
  | case2 h room => exact ⟨hl, by have := h.size_le; omega⟩

namespace Complete

variable (hc : h.Complete)

include hc

/-- Choosing leaves every variable in the heap. -/
theorem choose : (h.choose eligible).2.Complete := hc.lists.skipTo.restoreAll

/-- No slot is behind a complete heap. -/
theorem skipped : Skipped eligible h := by
  intro q behind
  have := q.isLt
  have := hc.full
  omega

/-- A chosen variable is eligible. -/
theorem eligible_of_choose {v : Fin n} (chosen : (h.choose eligible).1 = some v) :
    eligible v = true :=
  (hc.skipped.skipTo).2 v chosen

/-- If nothing is chosen, no variable is eligible. -/
theorem not_eligible_of_choose (none : (h.choose eligible).1 = none) (v : Fin n) :
    eligible v = false := by
  have empty : (h.skipTo eligible).size = 0 := by
    by_contra positive
    change (h.skipTo eligible).max? = .none at none
    rw [VarHeap.max?, dif_neg positive] at none
    cases none
  have lists : (h.skipTo eligible).Lists := hc.lists.skipTo
  obtain ⟨q, hq⟩ := lists v
  rw [← hq]
  exact (hc.skipped.skipTo).1 q (by omega)

/-! ## Scores and growth -/

theorem mapScores (f : Float → Float) : (h.mapScores f).Complete := ⟨hc.lists, hc.full⟩

theorem setScore (v : Fin n) (x : Float) : (h.setScore v x).Complete := by
  have lists : Lists { h with score := h.score.set v x } := hc.lists
  unfold VarHeap.setScore
  dsimp only
  split
  · refine ⟨(lists.siftUp _).siftDown _, ?_⟩
    rw [siftDown_size, siftUp_size]
    exact hc.full
  · exact ⟨lists, hc.full⟩

/-- A complete heap can take another variable. -/
theorem push (x : Float) : ∃ h', h.push x = .ok h' ∧ h'.Complete := by
  rw [VarHeap.push, if_pos hc.full]
  refine ⟨_, rfl, Lists.siftUp ?_ _, ?_⟩
  · intro v
    refine Fin.lastCases ⟨Fin.last n, by simp⟩ ?_ v
    intro w
    obtain ⟨q, hq⟩ := hc.lists w
    exact ⟨q.castSucc, by simpa using hq⟩
  · rw [siftUp_size]
    exact congrArg Nat.succ hc.full

end Complete

end VarHeap

namespace BranchingOrder

variable {n : Nat} {o : BranchingOrder n}

theorem complete_touch (h : o.heap.Complete) (v : Fin n) : (o.touch v).heap.Complete :=
  h.setScore v _

theorem complete_advance (h : o.heap.Complete) : o.advance.heap.Complete := by
  unfold advance
  dsimp only
  split
  · exact h.mapScores _
  · exact h

theorem complete_grow (h : o.heap.Complete) :
    ∃ o', o.grow = .ok o' ∧ o'.heap.Complete := by
  obtain ⟨h', pushed, complete⟩ := h.push 0.0
  exact ⟨⟨o.bump, o.growth, h'⟩, by rw [grow, pushed]; rfl, complete⟩

end BranchingOrder

end IncrementalSat
