import IncrementalSat.Proofs.Trail.Basic

/-!
# Allocating variables, assigning literals and opening levels

These operations keep a trail well-formed, and they only add: what had a value, a depth or a reason
keeps it.
-/
namespace IncrementalSat

theorem Lit.grow_injective {n : Nat} {l m : Lit n} (h : l.grow = m.grow) : l = m := by
  obtain ⟨v, sign⟩ := l
  obtain ⟨w, sign'⟩ := m
  simp only [grow, Literal.map, Literal.mk.injEq, Fin.castSucc_inj] at h
  rw [h.1, h.2]

namespace Trail

variable {n : Nat}

/-! ## Allocating -/

theorem cells_grow (t : Trail n) (v : Fin n) : t.grow.cells.get v.castSucc = t.cells.get v := by
  simp [grow]

theorem cells_grow_last (t : Trail n) : t.grow.cells.get (Fin.last n) = none := by
  simp [grow]

theorem eval_grow (t : Trail n) (l : Lit n) : t.grow.eval l.grow = t.eval l := by
  unfold eval valueOf
  exact congrArg (fun c => (Option.map Cell.value c).map (· == l.positive)) (t.cells_grow l.var)

theorem depth_grow (t : Trail n) (l : Lit n) : t.grow.depth l.grow = t.depth l := by
  unfold depth levelOf
  exact congrArg (fun c => (Option.map Cell.level c).getD 0) (t.cells_grow l.var)

theorem reasonOf_grow (t : Trail n) (v : Fin n) :
    t.grow.reasonOf v.castSucc = t.reasonOf v :=
  congrArg (Option.map Cell.reason) (t.cells_grow v)

theorem position_grow (t : Trail n) (i : Nat) (l : Lit (n + 1)) :
    t.grow.lits[i]? = some l ↔ ∃ m, t.lits[i]? = some m ∧ m.grow = l := by
  change (t.lits.map Lit.grow)[i]? = some l ↔ _
  rw [Array.getElem?_map, Option.map_eq_some_iff]

theorem position_grow_grow (t : Trail n) (i : Nat) (l : Lit n) :
    t.grow.lits[i]? = some l.grow ↔ t.lits[i]? = some l := by
  rw [position_grow]
  constructor
  · rintro ⟨m, hm, same⟩
    rwa [← Lit.grow_injective same]
  · exact fun h => ⟨l, h, rfl⟩

theorem size_grow (t : Trail n) : t.grow.size = t.size := Array.size_map

theorem WellFormed.grow {t : Trail n} (h : t.WellFormed) : t.grow.WellFormed where
  nodup := by
    change (((t.lits.map Lit.grow).toList).map (·.var)).Nodup
    rw [Array.toList_map, List.map_map]
    have casted : t.lits.toList.map ((·.var) ∘ Lit.grow) =
        (t.lits.toList.map (·.var)).map Fin.castSucc := by
      rw [List.map_map]
      rfl
    rw [casted]
    exact h.nodup.map (Fin.castSucc_injective n)
  cell := by
    intro i l hi
    obtain ⟨m, hm, rfl⟩ := (t.position_grow i l).1 hi
    obtain ⟨c, hc, value, level⟩ := h.cell i m hm
    exact ⟨c, (t.cells_grow m.var).trans hc, value, level⟩
  listed := by
    intro v c hc
    refine Fin.lastCases (fun hc => ?_) (fun w hc => ?_) v hc
    · rw [cells_grow_last] at hc
      cases hc
    · rw [cells_grow] at hc
      obtain ⟨i, hi⟩ := h.listed w c hc
      exact ⟨i, (t.position_grow i _).2 ⟨_, hi, rfl⟩⟩
  sorted := h.sorted
  starts_le := by
    rw [size_grow]
    exact h.starts_le

/-! ## Assigning -/

@[simp] theorem size_assign (t : Trail n) (l : Lit n) (r : Reason) :
    (t.assign l r).size = t.size + 1 := by
  simp [assign, size]

@[simp] theorem starts_assign (t : Trail n) (l : Lit n) (r : Reason) :
    (t.assign l r).starts = t.starts := rfl

@[simp] theorem levelAt_assign (t : Trail n) (l : Lit n) (r : Reason) (i : Nat) :
    (t.assign l r).levelAt i = t.levelAt i := rfl

theorem lits_assign (t : Trail n) (l : Lit n) (r : Reason) :
    (t.assign l r).lits = t.lits.push l := rfl

theorem position_assign (t : Trail n) (l m : Lit n) (r : Reason) (i : Nat) :
    (t.assign l r).lits[i]? = some m ↔ t.lits[i]? = some m ∨ (i = t.size ∧ l = m) := by
  rw [lits_assign, Array.getElem?_push]
  by_cases h : i = t.lits.size
  · simp [h, size]
  · simp [h, size]

theorem cells_assign (t : Trail n) (l : Lit n) (r : Reason) (v : Fin n) :
    (t.assign l r).cells.get v = if l.var = v then
      some ⟨l.positive, t.level, if t.level = 0 then .root else r⟩ else t.cells.get v := by
  simp [assign]

theorem eval_assign (t : Trail n) (l m : Lit n) (r : Reason) :
    (t.assign l r).eval m =
      if l.var = m.var then some (l.positive == m.positive) else t.eval m := by
  simp only [eval, valueOf, cells_assign]
  split <;> simp

theorem eval_assign_self (t : Trail n) (l : Lit n) (r : Reason) :
    (t.assign l r).eval l = some true := by
  simp [eval_assign]

theorem depth_assign (t : Trail n) (l m : Lit n) (r : Reason) :
    (t.assign l r).depth m = if l.var = m.var then t.level else t.depth m := by
  simp only [depth, levelOf, cells_assign]
  split <;> simp

theorem reasonOf_assign (t : Trail n) (l : Lit n) (r : Reason) (v : Fin n) :
    (t.assign l r).reasonOf v =
      if l.var = v then some (if t.level = 0 then .root else r) else t.reasonOf v := by
  simp only [reasonOf, cells_assign]
  split <;> simp

/-- A literal that has a value keeps it when another one is assigned. -/
theorem eval_assign_of_eval {t : Trail n} {l m : Lit n} {r : Reason} {b : Bool}
    (fresh : t.eval l = none) (h : t.eval m = some b) : (t.assign l r).eval m = some b := by
  rw [eval_assign, if_neg (var_ne_of_eval fresh h), h]

theorem depth_assign_of_eval {t : Trail n} {l m : Lit n} {r : Reason} {b : Bool}
    (fresh : t.eval l = none) (h : t.eval m = some b) : (t.assign l r).depth m = t.depth m := by
  rw [depth_assign, if_neg (var_ne_of_eval fresh h)]

theorem WellFormed.assign {t : Trail n} (h : t.WellFormed) {l : Lit n} (fresh : t.eval l = none)
    (r : Reason) : (t.assign l r).WellFormed where
  nodup := by
    rw [lits_assign, Array.toList_push, List.map_append, List.nodup_append]
    refine ⟨h.nodup, by simp, ?_⟩
    intro v hv w hw same
    obtain ⟨m, hm, rfl⟩ := List.mem_map.1 hv
    obtain ⟨i, hi⟩ := List.getElem?_of_mem hm
    have value := h.eval_of_position (i := i) (l := m) (by simpa using hi)
    simp only [List.map_cons, List.map_nil, List.mem_singleton] at hw
    exact var_ne_of_eval fresh value (by rw [same, hw])
  cell := by
    intro i m hi
    rw [cells_assign]
    rcases (position_assign t l m r i).1 hi with old | ⟨rfl, rfl⟩
    · obtain ⟨c, hc, value, level⟩ := h.cell i m old
      have other : l.var ≠ m.var := var_ne_of_eval fresh (h.eval_of_position old)
      exact ⟨c, by rw [if_neg other, hc], value, level⟩
    · refine ⟨_, if_pos rfl, rfl, ?_⟩
      rw [levelAt_assign, h.levelAt_of_size_le (Nat.le_refl _)]
  listed := by
    intro v c hc
    rw [cells_assign] at hc
    split at hc
    · next same =>
      cases hc
      exact ⟨t.size, (position_assign ..).2 (.inr ⟨rfl, by rw [← same]⟩)⟩
    · obtain ⟨i, hi⟩ := h.listed v c hc
      exact ⟨i, (position_assign ..).2 (.inl hi)⟩
  sorted := h.sorted
  starts_le := by
    intro s hs
    have := h.starts_le s hs
    rw [size_assign]
    omega

/-! ## Opening levels -/

@[simp] theorem level_openLevel (t : Trail n) : t.openLevel.level = t.level + 1 := by
  simp [openLevel, level]

/-- A new level starts behind every literal on the trail. -/
theorem levelAt_openLevel (t : Trail n) {i : Nat} (h : i < t.size) :
    t.openLevel.levelAt i = t.levelAt i := by
  simp [levelAt, openLevel, List.countP_append, h]

theorem WellFormed.openLevel {t : Trail n} (h : t.WellFormed) : t.openLevel.WellFormed where
  nodup := h.nodup
  cell := by
    intro i l hi
    rw [levelAt_openLevel t (Array.getElem?_eq_some_iff.1 hi).1]
    exact h.cell i l hi
  listed := h.listed
  sorted := by
    simp only [Trail.openLevel, Array.toList_push, List.pairwise_append]
    refine ⟨h.sorted, List.pairwise_singleton _ _, ?_⟩
    intro a ha b hb
    rw [List.mem_singleton.1 hb]
    exact h.starts_le a ha
  starts_le := by
    intro s hs
    simp only [Trail.openLevel, Array.toList_push, List.mem_append, List.mem_singleton] at hs
    rcases hs with hs | rfl
    · exact h.starts_le s hs
    · exact Nat.le_refl _

/-! ## Scanning -/

/-- What a scan answers says which literals are false, and where the first other one stands. -/
theorem scan_spec (t : Trail n) (ls : List (Lit n)) :
    match t.scan ls with
    | .satisfied => ∃ l ∈ ls, t.eval l = some true
    | .unassigned before l after => ls = before ++ l :: after ∧ t.eval l = none
    | .falsified => ∀ l ∈ ls, t.eval l = some false := by
  induction ls with
  | nil => simp [scan]
  | cons l ls ih =>
    unfold scan
    cases he : t.eval l with
    | none => exact ⟨rfl, he⟩
    | some b =>
      cases b with
      | true => exact ⟨l, by simp, he⟩
      | false =>
        cases hs : t.scan ls with
        | satisfied =>
          rw [hs] at ih
          obtain ⟨m, hm, true⟩ := ih
          exact ⟨m, by simp [hm], true⟩
        | unassigned before m after =>
          rw [hs] at ih
          exact ⟨by rw [ih.1, List.cons_append], ih.2⟩
        | falsified =>
          rw [hs] at ih
          intro m hm
          rcases List.mem_cons.1 hm with rfl | hm
          · exact he
          · exact ih m hm

end Trail

end IncrementalSat
