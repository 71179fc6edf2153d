import IncrementalSat.Proofs.Branching.HeapOrder
import IncrementalSat.Proofs.Branching.Scaling
import IncrementalSat.Proofs.Checked

/-!
# Branching on a most active variable

Whatever calls an order has seen since it was empty, its heap is arranged: a touch moves one
variable, scaling down is monotone, and a choice puts back what it has taken out. So the variable
that a choice finds is a most active one of those that may be branched on.
-/
namespace IncrementalSat

namespace BranchingOrder

variable {n : Nat} {decay : Float} {o : BranchingOrder n}

/-- The orders that calls lead to. A search may branch on a variable if it is a decision variable
without a value; here any set of variables may be asked for. -/
inductive Reached (decay : Float) : {n : Nat} → BranchingOrder n → Prop
  | empty : Reached decay (.empty decay)
  | grow {n : Nat} {o : BranchingOrder n} {o' : BranchingOrder (n + 1)} (before : Reached decay o)
      (grown : o.grow = .ok o') : Reached decay o'
  | touch {n : Nat} {o : BranchingOrder n} (before : Reached decay o) (v : Fin n) :
      Reached decay (o.touch v)
  | advance {n : Nat} {o : BranchingOrder n} (before : Reached decay o) : Reached decay o.advance
  | choose {n : Nat} {o : BranchingOrder n} (before : Reached decay o) (eligible : Fin n → Bool) :
      Reached decay (o.choose eligible).2

theorem arranged_empty : (empty decay).heap.Arranged where
  position_slots := fun q => q.elim0
  slots_position := fun v => v.elim0
  full := rfl
  ordered := fun q => q.elim0

theorem arranged_grow (h : o.heap.Arranged) : ∃ o', o.grow = .ok o' ∧ o'.heap.Arranged := by
  obtain ⟨heap, pushed, arranged, -⟩ := h.push 0.0
  exact ⟨⟨o.bump, o.growth, heap⟩, by rw [grow, pushed]; rfl, arranged⟩

theorem arranged_touch (h : o.heap.Arranged) (v : Fin n) : (o.touch v).heap.Arranged :=
  h.setScore v _

theorem arranged_advance (h : o.heap.Arranged) : o.advance.heap.Arranged := by
  unfold advance
  dsimp only
  split
  · exact h.mapScores Score.le_div_threshold
  · exact h

theorem arranged_choose (h : o.heap.Arranged) (eligible : Fin n → Bool) :
    (o.choose eligible).2.heap.Arranged :=
  h.choose

theorem Reached.arranged (h : Reached decay o) : o.heap.Arranged := by
  induction h with
  | empty => exact arranged_empty
  | grow _ grown ih =>
    obtain ⟨o', grown', arranged⟩ := arranged_grow ih
    rw [grown, Except.ok.injEq] at grown'
    exact grown' ▸ arranged
  | touch _ v ih => exact arranged_touch ih v
  | advance _ ih => exact arranged_advance ih
  | choose _ eligible ih => exact arranged_choose ih eligible

/-- A variable that may be branched on, with a score that no other such variable beats. -/
structure MostActive (o : BranchingOrder n) (eligible : Fin n → Bool) (v : Fin n) : Prop where
  allowed : eligible v = true
  greatest : ∀ w, eligible w = true → Score.le (o.heap.score.get w) (o.heap.score.get v) = true

/-- A choice finds a most active variable unless none may be branched on, and leaves every variable
in its one slot of an arranged heap, with the score that it had. -/
theorem choose_most_active (reached : Reached decay o) (eligible : Fin n → Bool) :
    ((o.choose eligible).1 = none ↔ ∀ v, eligible v = false) ∧
      (∀ v, (o.choose eligible).1 = some v → o.MostActive eligible v) ∧
      (o.choose eligible).2.heap.Arranged ∧
      (∀ v, ∃! q, (o.choose eligible).2.heap.slots.get q = v) ∧
      (o.choose eligible).2.heap.score = o.heap.score := by
  have before := reached.arranged
  have after := arranged_choose before eligible
  refine ⟨⟨before.complete.not_eligible_of_choose, fun refused => ?_⟩, fun v chosen => ?_, after,
    fun v => ⟨_, after.slots_position v, fun q at_q => ?_⟩, o.heap.choose_score⟩
  · cases chosen : (o.choose eligible).1 with
    | none => rfl
    | some v =>
      have accepted := before.complete.eligible_of_choose chosen
      rw [refused v] at accepted
      cases accepted
  · exact ⟨before.complete.eligible_of_choose chosen, fun w => before.greatest_of_choose chosen⟩
  · exact (after.slot_eq_iff _ _).1 (at_q.trans (after.slots_position v).symm)

/-- Three variables, of which the second has been met twice and the third once. -/
def sampleOrder : Checked (BranchingOrder 3) := do
  let o ← (empty 0.95).grow
  let o ← o.grow
  let o ← o.grow
  pure (((o.touch 1).advance.touch 2).touch 1)

/-- If the second variable has a value, the third is chosen. -/
theorem choose_most_active_sampleOrder : ∃ o, sampleOrder = .ok o ∧
    (o.choose (· != 1)).1 = some 2 ∧ o.MostActive (· != 1) 2 ∧
    (o.choose (· != 1)).2.heap.Arranged := by
  have chosen : Yields sampleOrder fun o => (o.choose (· != 1)).1 = some 2 := by decide +kernel
  obtain ⟨o, made, found⟩ := chosen
  have reached : Reached 0.95 o := by
    simp only [sampleOrder, bind_eq_ok_iff] at made
    obtain ⟨o₁, grown₁, o₂, grown₂, o₃, grown₃, done⟩ := made
    have grown := ((Reached.empty.grow grown₁).grow grown₂).grow grown₃
    have result : ((o₃.touch 1).advance.touch 2).touch 1 = o := Except.ok.inj done
    exact result ▸ ((grown.touch 1).advance.touch 2).touch 1
  obtain ⟨-, best, arranged, -⟩ := choose_most_active reached (· != 1)
  exact ⟨o, made, found, best 2 found, arranged⟩

end BranchingOrder

end IncrementalSat
