import IncrementalSat.Clause.Store
import IncrementalSat.Proofs.Checked

/-!
# Well-formed clause stores

The clauses of a well-formed store have literals over distinct variables, and its counters are the
numbers of problem clauses, learnt clauses and holes.
-/
namespace IncrementalSat

namespace ClauseStore

variable {n : Nat}

/-- The index leads to the clause. -/
def Has (s : ClauseStore n) (i : Nat) (c : Clause n) : Prop := s.slots[i]? = some (some c)

/-- The clauses in storage order. -/
def clauses (s : ClauseStore n) : List (Clause n) := s.slots.toList.filterMap id

/-- Counters and clauses are as the operations leave them. -/
structure WellFormed (s : ClauseStore n) : Prop where
  distinct : ∀ i c, s.Has i c → (c.lits.map (·.var)).Nodup
  problems : s.problems = s.slots.countP (·.any (!·.learnt))
  learnts : s.learnts = s.slots.countP (·.any (·.learnt))
  holes : s.holes = s.slots.countP (·.isNone)

/-! ## Looking up -/

theorem Has.lt_size {s : ClauseStore n} {i : Nat} {c : Clause n} (h : s.Has i c) : i < s.size :=
  (Array.getElem?_eq_some_iff.1 h).1

theorem Has.unique {s : ClauseStore n} {i : Nat} {c d : Clause n} (hc : s.Has i c)
    (hd : s.Has i d) : c = d := by
  rw [Has, hc] at hd
  simpa using hd

theorem Has.fetch {s : ClauseStore n} {i : Nat} {c : Clause n} (h : s.Has i c) :
    s.fetch i = .ok c := by
  rw [Has] at h
  simp [ClauseStore.fetch, h]

theorem has_of_fetch {s : ClauseStore n} {i : Nat} {c : Clause n} (fetched : s.fetch i = .ok c) :
    s.Has i c := by
  unfold ClauseStore.fetch at fetched
  split at fetched
  · cases fetched
  · cases fetched
  · next found =>
    cases fetched
    exact found

theorem isLive_iff (s : ClauseStore n) (i : Nat) : s.isLive i = true ↔ ∃ c, s.Has i c := by
  unfold isLive Has
  cases s.slots[i]? with
  | none => simp
  | some o => cases o <;> simp

theorem mem_clauses_iff (s : ClauseStore n) (c : Clause n) : c ∈ s.clauses ↔ ∃ i, s.Has i c := by
  simp only [clauses, List.mem_filterMap, id_eq, Has, exists_eq_right, Array.mem_toList_iff]
  exact Array.mem_iff_getElem?

theorem mem_live_iff (s : ClauseStore n) (i : Nat) (c : Clause n) :
    (i, c) ∈ s.live ↔ s.Has i c := by
  simp only [live, List.mem_filterMap, Option.map_eq_some_iff, Prod.exists, Prod.mk.injEq,
    List.mem_zipIdx_iff_getElem?, Array.getElem?_toList, Has]
  constructor
  · rintro ⟨o, j, hj, d, rfl, rfl, rfl⟩
    exact hj
  · intro h
    exact ⟨some c, i, h, c, rfl, rfl, rfl⟩

/-- No index occurs twice among the live clauses. -/
theorem nodup_live (s : ClauseStore n) : (s.live.map (·.1)).Nodup := by
  have sub : (s.live.map (·.1)).Sublist (s.slots.toList.zipIdx.map (·.2)) := by
    unfold live
    generalize s.slots.toList.zipIdx = slots
    induction slots with
    | nil => simp
    | cons a rest ih =>
      obtain ⟨o, i⟩ := a
      cases o with
      | none => simpa using ih.cons i
      | some c => simpa using ih.cons_cons i
  refine sub.nodup ?_
  rw [List.zipIdx_map_snd]
  exact List.nodup_range'

/-! ## Counting -/

theorem clauses_eq_map_live (s : ClauseStore n) : s.clauses = s.live.map (·.2) := by
  unfold clauses live
  generalize 0 = k
  induction s.slots.toList generalizing k with
  | nil => rfl
  | cons slot slots ih =>
    cases slot with
    | none => simpa using ih (k + 1)
    | some c => simpa using ih (k + 1)

theorem countP_slots (s : ClauseStore n) (f : Clause n → Bool) :
    s.slots.countP (·.any f) = s.clauses.countP f := by
  rw [← Array.countP_toList, clauses, List.countP_filterMap]
  congr 1
  funext slot
  cases slot <;> rfl

theorem WellFormed.problems_eq {s : ClauseStore n} (h : s.WellFormed) :
    s.problems = s.clauses.countP (!·.learnt) :=
  h.problems.trans (s.countP_slots _)

theorem WellFormed.learnts_eq {s : ClauseStore n} (h : s.WellFormed) :
    s.learnts = s.clauses.countP (·.learnt) :=
  h.learnts.trans (s.countP_slots _)

/-! ## Putting a clause at an index -/

theorem has_put_iff {s : ClauseStore n} {i : Nat} {c : Clause n} (h : s.Has i c) (d : Clause n)
    (j : Nat) (e : Clause n) : (s.put i d).Has j e ↔ if i = j then d = e else s.Has j e := by
  have lt := h.lt_size
  unfold Has put
  rw [Array.getElem?_setIfInBounds]
  by_cases same : i = j
  · subst same
    have lt' : i < s.slots.size := lt
    simp [lt']
  · simp [same]

@[simp] theorem size_put (s : ClauseStore n) (i : Nat) (c : Clause n) :
    (s.put i c).size = s.size := by
  simp [put, size]

/-! ## Appending a clause -/

theorem size_push (s : ClauseStore n) (c : Clause n) : (s.push c).size = s.size + 1 := by
  unfold push size
  dsimp only
  split <;> simp

theorem has_push_iff (s : ClauseStore n) (c : Clause n) (i : Nat) (d : Clause n) :
    (s.push c).Has i d ↔ s.Has i d ∨ (i = s.size ∧ c = d) := by
  have slots : (s.push c).slots = s.slots.push (some c) := by
    unfold push
    dsimp only
    split <;> rfl
  unfold Has
  rw [slots, Array.getElem?_push]
  by_cases same : i = s.slots.size
  · simp [same, size]
  · simp [same, size]

theorem WellFormed.push {s : ClauseStore n} (h : s.WellFormed) {c : Clause n}
    (distinct : (c.lits.map (·.var)).Nodup) : (s.push c).WellFormed where
  distinct := by
    intro i d hd
    rcases (s.has_push_iff c i d).1 hd with old | ⟨-, rfl⟩
    · exact h.distinct i d old
    · exact distinct
  problems := by
    unfold ClauseStore.push
    cases hl : c.learnt <;> simp [hl, h.problems]
  learnts := by
    unfold ClauseStore.push
    cases hl : c.learnt <;> simp [hl, h.learnts]
  holes := by
    unfold ClauseStore.push
    cases c.learnt <;> simp [h.holes]

/-! ## Removing a clause -/

/-- Removing a clause succeeds: the counter of its kind is positive. -/
theorem WellFormed.remove_eq {s : ClauseStore n} (h : s.WellFormed) {i : Nat} {c : Clause n}
    (hc : s.Has i c) : s.remove i = .ok { s with
      slots := s.slots.setIfInBounds i none
      problems := s.problems - (if c.learnt then 0 else 1)
      learnts := s.learnts - (if c.learnt then 1 else 0)
      holes := s.holes + 1 } := by
  have mem : some c ∈ s.slots := Array.mem_of_getElem? hc
  unfold ClauseStore.remove
  rw [hc.fetch]
  cases hl : c.learnt with
  | true =>
    have pos : s.learnts ≠ 0 := by
      rw [h.learnts]
      exact Nat.ne_of_gt (Array.countP_pos_iff.2 ⟨some c, mem, by simp [hl]⟩)
    simp [bind, Except.bind, hl, pos]
    rfl
  | false =>
    have pos : s.problems ≠ 0 := by
      rw [h.problems]
      exact Nat.ne_of_gt (Array.countP_pos_iff.2 ⟨some c, mem, by simp [hl]⟩)
    simp [bind, Except.bind, hl, pos]
    rfl

/-- Removing a clause leaves a hole at its index and affects no other index. -/
theorem WellFormed.remove {s : ClauseStore n} (h : s.WellFormed) {i : Nat} {c : Clause n}
    (hc : s.Has i c) : Yields (s.remove i) fun s' =>
      s'.WellFormed ∧ s'.slots = s.slots.setIfInBounds i none := by
  have lt : i < s.slots.size := hc.lt_size
  have at_i : s.slots[i] = some c := (Array.getElem?_eq_some_iff.1 hc).2
  refine ⟨_, h.remove_eq hc, ⟨?_, ?_, ?_, ?_⟩, rfl⟩
  · intro j d hd
    rw [Has, Array.getElem?_setIfInBounds] at hd
    split at hd
    · simp at hd
    · exact h.distinct j d hd
  · rw [h.problems, Array.setIfInBounds, dif_pos lt, Array.countP_set, at_i]
    cases hl : c.learnt <;> simp [hl]
  · rw [h.learnts, Array.setIfInBounds, dif_pos lt, Array.countP_set, at_i]
    cases hl : c.learnt <;> simp [hl]
  · rw [h.holes, Array.setIfInBounds, dif_pos lt, Array.countP_set, at_i]
    simp

end ClauseStore

end IncrementalSat
