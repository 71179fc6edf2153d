import IncrementalSat.Proofs.Trail.Growth

/-!
# Backtracking

Going back to a level keeps exactly the literals of that level and below, at their positions, with
their depths and reasons, and remembers the signs of the others.
-/
namespace IncrementalSat

namespace Trail

variable {n : Nat}

/-! ## Taking literals off -/

theorem undoLast_of_empty {t : Trail n} (h : t.lits.toList = []) : t.undoLast = t := by
  have empty : t.lits = #[] := by simpa using h
  simp [undoLast, empty]

theorem undoLast_of_append {t : Trail n} {ls : List (Lit n)} {l : Lit n}
    (h : t.lits.toList = ls ++ [l]) : t.undoLast =
      { t with
        lits := ls.toArray
        cells := t.cells.set l.var none l.var_lt
        phase := t.phase.set l.var l.positive l.var_lt } := by
  have back : t.lits.back? = some l := by rw [← Array.getLast?_toList, h]; simp
  have pop : t.lits.pop = ls.toArray := by
    apply Array.toList_inj.1
    rw [Array.toList_pop, h]
    simp
  simp [undoLast, back, pop]

/-- Undoing takes literals off the end and clears the cells of their variables. -/
theorem undo_spec (k : Nat) (t : Trail n) :
    (undo k t).starts = t.starts ∧
    (undo k t).lits.toList = t.lits.toList.take (t.size - k) ∧
    ∀ v : Fin n, (undo k t).cells.get v =
      if v ∈ (t.lits.toList.drop (t.size - k)).map (·.var) then none else t.cells.get v := by
  induction k generalizing t with
  | zero =>
    have all : t.lits.toList.drop (t.size - 0) = [] := List.drop_of_length_le (by simp [size])
    simp only [all]
    simp [undo, size]
  | succ k ih =>
    obtain ⟨starts, lits, cells⟩ := ih t.undoLast
    change (undo k t.undoLast).starts = _ ∧ (undo k t.undoLast).lits.toList = _ ∧
      ∀ v : Fin n, (undo k t.undoLast).cells.get v = _
    rcases List.eq_nil_or_concat' t.lits.toList with empty | ⟨ls, l, last⟩
    · rw [undoLast_of_empty empty] at starts lits cells ⊢
      simp [lits, cells, starts, empty]
    · rw [undoLast_of_append last] at starts lits cells ⊢
      have size : t.size = ls.length + 1 := by
        rw [Trail.size, ← Array.length_toList, last]
        simp
      have cut : ls.length + 1 - (k + 1) = ls.length - k := by omega
      have short : ls.length - k - ls.length = 0 := by omega
      refine ⟨starts, ?_, ?_⟩
      · rw [lits, last, size, cut]
        simp [Trail.size, List.take_append, short]
      · intro v
        rw [cells, last, size, cut]
        simp only [Trail.size, List.size_toArray, List.drop_append, short, List.drop_zero,
          List.map_append, List.mem_append, List.map_cons, List.map_nil, List.mem_singleton]
        by_cases same : v = l.var
        · simp [same]
        · simp [same, Ne.symm same]

/-- Undoing remembers the sign of each literal that it takes off, and of no other. -/
theorem phase_undo (k : Nat) (t : Trail n) (nodup : (t.lits.toList.map (·.var)).Nodup) :
    (∀ l ∈ t.lits.toList.drop (t.size - k), (undo k t).phase.get l.var = l.positive) ∧
    ∀ v ∉ (t.lits.toList.drop (t.size - k)).map (·.var),
      (undo k t).phase.get v = t.phase.get v := by
  induction k generalizing t with
  | zero =>
    have all : t.lits.toList.drop (t.size - 0) = [] := List.drop_of_length_le (by simp [size])
    rw [all]
    exact ⟨by simp, fun v _ => rfl⟩
  | succ k ih =>
    rw [undo]
    rcases List.eq_nil_or_concat' t.lits.toList with empty | ⟨ls, l, last⟩
    · have still := ih t nodup
      rw [undoLast_of_empty empty]
      rw [empty, List.drop_nil] at still ⊢
      exact still
    · rw [last, List.map_append, List.map_singleton, List.nodup_append] at nodup
      obtain ⟨taken, kept⟩ := ih t.undoLast (by rw [undoLast_of_append last]; exact nodup.1)
      have size : t.size = ls.length + 1 := by
        rw [Trail.size, ← Array.length_toList, last]
        simp
      have cut : t.lits.toList.drop (t.size - (k + 1)) = ls.drop (ls.length - k) ++ [l] := by
        rw [last, size, Nat.add_sub_add_right,
          List.drop_append_of_le_length (Nat.sub_le ls.length k)]
      rw [undoLast_of_append last] at taken kept ⊢
      simp only [Trail.size, List.size_toArray, Vector.get_set] at taken kept
      rw [cut]
      refine ⟨fun m hm => ?_, fun v hv => ?_⟩
      · rcases List.mem_append.1 hm with earlier | newest
        · exact taken m earlier
        · -- no earlier literal is over the variable of the newest one
          rw [List.mem_singleton.1 newest, kept l.var, if_pos rfl]
          intro twice
          obtain ⟨m, hm, same⟩ := List.mem_map.1 twice
          exact nodup.2.2 _ (List.mem_map_of_mem (List.mem_of_mem_drop hm)) _
            (List.mem_singleton_self _) same
      · rw [List.map_append, List.mem_append, not_or] at hv
        rw [kept v hv.1, if_neg]
        exact fun same => hv.2 (List.mem_singleton.2 same.symm)

/-! ## Going back to a level -/

theorem backtrack_of_level_le {t : Trail n} {k : Nat} (h : t.level ≤ k) : t.backtrack k = t := by
  have high : ¬ k < t.starts.size := Nat.not_lt.2 h
  rw [backtrack, dif_neg high]

/-- The literals behind the start of the level above `k` are those of a higher level. -/
theorem WellFormed.mem_above_iff {t : Trail n} (h : t.WellFormed) {k : Nat}
    (hk : k < t.starts.size) (l : Lit n) : l ∈ t.lits.toList.drop t.starts[k] ↔
      ∃ c : Cell, t.cells.get l.var = some c ∧ c.value = l.positive ∧ k < c.level := by
  constructor
  · intro hl
    obtain ⟨j, hj⟩ := List.getElem?_of_mem hl
    rw [List.getElem?_drop, Array.getElem?_toList] at hj
    obtain ⟨c, hc, value, level⟩ := h.cell _ _ hj
    have low := h.levelAt_le_iff hk (t.starts[k] + j)
    exact ⟨c, hc, value, by omega⟩
  · rintro ⟨c, hc, value, high⟩
    obtain ⟨i, hi⟩ := h.listed l.var c hc
    obtain ⟨d, hd, -, level⟩ := h.cell i _ hi
    rw [hc] at hd
    cases hd
    have low := h.levelAt_le_iff hk i
    have behind : t.starts[k] ≤ i := by omega
    apply List.mem_of_getElem? (i := i - t.starts[k])
    rw [List.getElem?_drop, Array.getElem?_toList, Nat.add_sub_cancel' behind, hi, value]

theorem WellFormed.mem_vars_above_iff {t : Trail n} (h : t.WellFormed) {k : Nat}
    (hk : k < t.starts.size) (v : Fin n) : v ∈ (t.lits.toList.drop t.starts[k]).map (·.var) ↔
      ∃ c : Cell, t.cells.get v = some c ∧ k < c.level := by
  rw [List.mem_map]
  constructor
  · rintro ⟨l, hl, rfl⟩
    obtain ⟨c, hc, -, high⟩ := (h.mem_above_iff hk l).1 hl
    exact ⟨c, hc, high⟩
  · rintro ⟨c, hc, high⟩
    exact ⟨⟨v, c.value⟩, (h.mem_above_iff hk _).2 ⟨c, hc, rfl, high⟩, rfl⟩

/-- What is left below the start of the level above `k`. -/
theorem WellFormed.backtrack_spec {t : Trail n} (h : t.WellFormed) {k : Nat}
    (hk : k < t.starts.size) :
    (t.backtrack k).starts.toList = t.starts.toList.take k ∧
    (t.backtrack k).lits.toList = t.lits.toList.take t.starts[k] ∧
    ∀ v : Fin n, (t.backtrack k).cells.get v = (t.cells.get v).filter (·.level ≤ k) := by
  have le := h.starts_le t.starts[k] (by simp)
  obtain ⟨starts, lits, cells⟩ :=
    undo_spec (t.size - t.starts[k]) { t with starts := t.starts.take k }
  have cut : t.size - (t.size - t.starts[k]) = t.starts[k] := by omega
  rw [show ({ t with starts := t.starts.take k } : Trail n).size = t.size from rfl, cut]
    at lits cells
  rw [backtrack, dif_pos hk]
  refine ⟨by simp [starts], lits, ?_⟩
  intro v
  rw [cells]
  cases hc : t.cells.get v with
  | none => simp
  | some c =>
    have above := h.mem_vars_above_iff hk v
    simp only [hc, Option.some.injEq, exists_eq_left'] at above
    rw [Option.filter_some]
    by_cases high : k < c.level
    · rw [if_pos (above.2 high), if_neg (by simpa using high)]
    · rw [if_neg (mt above.1 high), if_pos (by simpa using high)]

/-- The literals behind that start leave their signs. -/
theorem WellFormed.phase_backtrack_spec {t : Trail n} (h : t.WellFormed) {k : Nat}
    (hk : k < t.starts.size) :
    (∀ l ∈ t.lits.toList.drop t.starts[k], (t.backtrack k).phase.get l.var = l.positive) ∧
    ∀ v ∉ (t.lits.toList.drop t.starts[k]).map (·.var),
      (t.backtrack k).phase.get v = t.phase.get v := by
  have le := h.starts_le t.starts[k] (by simp)
  have undone := phase_undo (t.size - t.starts[k]) { t with starts := t.starts.take k } h.nodup
  rw [show ({ t with starts := t.starts.take k } : Trail n).size = t.size from rfl,
    Nat.sub_sub_self le] at undone
  rw [backtrack, dif_pos hk]
  exact undone

namespace WellFormed

variable {t : Trail n}

theorem level_le (h : t.WellFormed) {v : Fin n} {c : Cell} (hc : t.cells.get v = some c) :
    c.level ≤ t.level := by
  have := h.depth_le_level ⟨v, true⟩
  simpa only [depth, levelOf, hc, Option.map_some, Option.getD_some] using this

theorem cells_backtrack (h : t.WellFormed) (k : Nat) (v : Fin n) :
    (t.backtrack k).cells.get v = (t.cells.get v).filter (·.level ≤ k) := by
  by_cases hk : k < t.starts.size
  · exact (h.backtrack_spec hk).2.2 v
  · have high : t.level ≤ k := Nat.not_lt.1 hk
    rw [backtrack_of_level_le high]
    cases hc : t.cells.get v with
    | none => rfl
    | some c =>
      have := h.level_le hc
      rw [Option.filter_some, if_pos]
      simp only [decide_eq_true_eq]
      omega

/-- A variable of a higher level remembers the value it had. -/
theorem phase_backtrack_of_lt (h : t.WellFormed) {k : Nat} {v : Fin n} {c : Cell}
    (hc : t.cells.get v = some c) (high : k < c.level) :
    (t.backtrack k).phase.get v = c.value := by
  have hk : k < t.starts.size := Nat.lt_of_lt_of_le high (h.level_le hc)
  exact (h.phase_backtrack_spec hk).1 ⟨v, c.value⟩ ((h.mem_above_iff hk _).2 ⟨c, hc, rfl, high⟩)

/-- Every other variable remembers what it did before. -/
theorem phase_backtrack_of_le (h : t.WellFormed) {k : Nat} {v : Fin n}
    (low : ∀ c, t.cells.get v = some c → c.level ≤ k) :
    (t.backtrack k).phase.get v = t.phase.get v := by
  by_cases hk : k < t.starts.size
  · refine (h.phase_backtrack_spec hk).2 v fun above => ?_
    obtain ⟨c, hc, high⟩ := (h.mem_vars_above_iff hk v).1 above
    exact absurd (low c hc) (Nat.not_le.2 high)
  · rw [backtrack_of_level_le (Nat.not_lt.1 hk)]

theorem level_backtrack (h : t.WellFormed) (k : Nat) : (t.backtrack k).level = min k t.level := by
  by_cases hk : k < t.starts.size
  · rw [level, ← Array.length_toList, (h.backtrack_spec hk).1, List.length_take]
    rfl
  · have high : t.level ≤ k := Nat.not_lt.1 hk
    rw [backtrack_of_level_le high]
    omega

/-- The literals that stay are those of depth at most `k`, at the same positions. -/
theorem position_backtrack (h : t.WellFormed) (k i : Nat) (l : Lit n) :
    (t.backtrack k).lits[i]? = some l ↔ t.lits[i]? = some l ∧ t.depth l ≤ k := by
  by_cases hk : k < t.starts.size
  · rw [← Array.getElem?_toList, (h.backtrack_spec hk).2.1, List.getElem?_take]
    constructor
    · intro hi
      split at hi
      · next low =>
        rw [Array.getElem?_toList] at hi
        exact ⟨hi, by rw [h.depth_of_position hi]; exact (h.levelAt_le_iff hk i).2 low⟩
      · cases hi
    · rintro ⟨hi, low⟩
      rw [h.depth_of_position hi, h.levelAt_le_iff hk] at low
      rw [if_pos low, Array.getElem?_toList, hi]
  · have high : t.level ≤ k := Nat.not_lt.1 hk
    rw [backtrack_of_level_le high]
    have := h.depth_le_level l
    constructor
    · exact fun hi => ⟨hi, by omega⟩
    · exact fun hi => hi.1

theorem eval_backtrack (h : t.WellFormed) (k : Nat) (l : Lit n) :
    (t.backtrack k).eval l = if t.depth l ≤ k then t.eval l else none := by
  cases hc : t.cells.get l.var with
  | none => simp [eval, valueOf, h.cells_backtrack, hc]
  | some c =>
    have depth : t.depth l = c.level := by simp [depth, levelOf, hc]
    rw [depth, eval, valueOf, h.cells_backtrack, hc, eval, valueOf, hc, Option.filter_some]
    by_cases low : c.level ≤ k <;> simp [low]

theorem depth_backtrack (h : t.WellFormed) (k : Nat) (l : Lit n) :
    (t.backtrack k).depth l = if t.depth l ≤ k then t.depth l else 0 := by
  cases hc : t.cells.get l.var with
  | none => simp [h.cells_backtrack, depth, levelOf, hc]
  | some c =>
    have depth : t.depth l = c.level := by simp [depth, levelOf, hc]
    rw [depth, Trail.depth, levelOf, h.cells_backtrack, hc, Option.filter_some]
    by_cases low : c.level ≤ k <;> simp [low]

theorem reasonOf_backtrack (h : t.WellFormed) (k : Nat) (l : Lit n) :
    (t.backtrack k).reasonOf l.var = if t.depth l ≤ k then t.reasonOf l.var else none := by
  cases hc : t.cells.get l.var with
  | none => simp [reasonOf, h.cells_backtrack, hc]
  | some c =>
    have depth : t.depth l = c.level := by simp [depth, levelOf, hc]
    rw [depth, reasonOf, h.cells_backtrack, hc, reasonOf, hc, Option.filter_some]
    by_cases low : c.level ≤ k <;> simp [low]

theorem size_backtrack (h : t.WellFormed) {k : Nat} (hk : k < t.starts.size) :
    (t.backtrack k).size = t.starts[k] := by
  have le := h.starts_le t.starts[k] (by simp)
  rw [size, ← Array.length_toList, (h.backtrack_spec hk).2.1, List.length_take]
  simpa [size] using le

theorem size_backtrack_le (h : t.WellFormed) (k : Nat) : (t.backtrack k).size ≤ t.size := by
  by_cases hk : k < t.starts.size
  · rw [h.size_backtrack hk]
    exact h.starts_le _ (by simp)
  · rw [backtrack_of_level_le (Nat.not_lt.1 hk)]

/-- Up to a position of a level that stays, no higher level has started. -/
theorem lt_of_mem_drop_starts (h : t.WellFormed) {k i s : Nat} (low : t.levelAt i ≤ k)
    (hs : s ∈ t.starts.toList.drop k) : i < s := by
  have hk : k < t.starts.size := by
    have := List.length_pos_of_mem hs
    rw [List.length_drop, Array.length_toList] at this
    omega
  have before := (h.levelAt_le_iff hk i).1 low
  have head : t.starts.toList.drop k = t.starts[k] :: t.starts.toList.drop (k + 1) := by
    rw [List.drop_eq_getElem_cons (by simpa using hk), Array.getElem_toList]
  have sorted := h.sorted.drop (i := k)
  rw [head, List.pairwise_cons] at sorted
  rw [head, List.mem_cons] at hs
  rcases hs with rfl | hs
  · exact before
  · exact Nat.lt_of_lt_of_le before (sorted.1 s hs)

/-- The start of a level that stays is kept. -/
theorem mem_starts_backtrack (h : t.WellFormed) {k i : Nat} (low : t.levelAt i ≤ k)
    (start : i ∈ t.starts.toList) : i ∈ (t.backtrack k).starts.toList := by
  by_cases hk : k < t.starts.size
  · rw [(h.backtrack_spec hk).1]
    rw [← List.take_append_drop k t.starts.toList, List.mem_append] at start
    exact start.resolve_right fun above => Nat.lt_irrefl i (h.lt_of_mem_drop_starts low above)
  · rwa [backtrack_of_level_le (Nat.not_lt.1 hk)]

theorem levelAt_backtrack (h : t.WellFormed) {k i : Nat} (low : t.levelAt i ≤ k) :
    (t.backtrack k).levelAt i = t.levelAt i := by
  by_cases hk : k < t.starts.size
  · have rest : (t.starts.toList.drop k).countP (· ≤ i) = 0 := by
      apply List.countP_eq_zero.2
      intro s hs
      simpa using h.lt_of_mem_drop_starts low hs
    have split : t.starts.toList.countP (· ≤ i) = (t.starts.toList.take k).countP (· ≤ i) +
        (t.starts.toList.drop k).countP (· ≤ i) := by
      rw [← List.countP_append, List.take_append_drop]
    rw [levelAt, (h.backtrack_spec hk).1, levelAt, split, rest, Nat.add_zero]
  · rw [backtrack_of_level_le (Nat.not_lt.1 hk)]

theorem backtrack (h : t.WellFormed) (k : Nat) : (t.backtrack k).WellFormed := by
  by_cases hk : k < t.starts.size
  · obtain ⟨starts, lits, -⟩ := h.backtrack_spec hk
    refine ⟨?_, ?_, ?_, ?_, ?_⟩
    · rw [lits, List.map_take]
      exact List.Pairwise.take h.nodup
    · intro i l hi
      obtain ⟨hi, low⟩ := (h.position_backtrack k i l).1 hi
      obtain ⟨c, hc, value, level⟩ := h.cell i l hi
      rw [h.depth_of_position hi] at low
      refine ⟨c, ?_, value, ?_⟩
      · rw [h.cells_backtrack, hc, Option.filter_some, if_pos]
        simpa [level] using low
      · rw [h.levelAt_backtrack low, level]
    · intro v c hc
      rw [h.cells_backtrack, Option.filter_eq_some_iff] at hc
      obtain ⟨i, hi⟩ := h.listed v c hc.1
      refine ⟨i, (h.position_backtrack k i _).2 ⟨hi, ?_⟩⟩
      simpa [depth, levelOf, hc.1] using hc.2
    · rw [starts]
      exact h.sorted.take
    · intro s hs
      rw [h.size_backtrack hk]
      rw [starts] at hs
      have apart := h.sorted
      rw [← List.take_append_drop k t.starts.toList, List.pairwise_append] at apart
      refine apart.2.2 s hs t.starts[k] (List.mem_of_getElem? (i := 0) ?_)
      simp [hk]
  · rwa [backtrack_of_level_le (Nat.not_lt.1 hk)]

end WellFormed

end Trail

end IncrementalSat
