import IncrementalSat.Proofs.Trail.Backtrack

/-!
# Where backtracking leads back to

The history of a trail lists the calls it comes from, so what the trail was just before a level was
last opened can be looked up in it. Going back to the level below restores that trail, as each call
made since then commutes with going back or is undone by it; only the remembered signs are new.
-/
namespace IncrementalSat

namespace Trail

variable {n : Nat} {s t u : Trail n}

/-! ## Trails that differ in the remembered signs -/

/-- The same literals, level starts, values, levels and reasons. -/
structure Resembles (t u : Trail n) : Prop where
  lits : t.lits = u.lits
  starts : t.starts = u.starts
  cells : t.cells = u.cells

theorem Resembles.refl (t : Trail n) : t.Resembles t := ⟨rfl, rfl, rfl⟩

theorem Resembles.trans (h : s.Resembles t) (h' : t.Resembles u) : s.Resembles u :=
  ⟨h.lits.trans h'.lits, h.starts.trans h'.starts, h.cells.trans h'.cells⟩

theorem Resembles.grow (h : t.Resembles u) : t.grow.Resembles u.grow where
  lits := congrArg (Array.map Lit.grow) h.lits
  starts := h.starts
  cells := congrArg (Vector.push · none) h.cells

/-! ## Going back after one more call -/

/-- Whatever has the literals, starts and cells of the levels up to `k` is where going back leads. -/
theorem WellFormed.backtrack_resembles (h : t.WellFormed) {k start : Nat}
    (opened : t.starts[k]? = some start) (starts : u.starts.toList = t.starts.toList.take k)
    (lits : u.lits.toList = t.lits.toList.take start)
    (cells : ∀ v : Fin n, u.cells.get v = (t.cells.get v).filter (·.level ≤ k)) :
    (t.backtrack k).Resembles u := by
  obtain ⟨hk, rfl⟩ := Array.getElem?_eq_some_iff.1 opened
  obtain ⟨starts', lits', cells'⟩ := h.backtrack_spec hk
  refine ⟨Array.toList_inj.1 (lits'.trans lits.symm), Array.toList_inj.1 (starts'.trans starts.symm),
    Vector.ext fun i hi => ?_⟩
  exact (cells' ⟨i, hi⟩).trans (cells ⟨i, hi⟩).symm

theorem WellFormed.backtrack_grow (h : t.WellFormed) {k : Nat} (hk : k < t.starts.size) :
    (t.grow.backtrack k).Resembles (t.backtrack k).grow := by
  obtain ⟨starts, lits, cells⟩ := h.backtrack_spec hk
  refine h.grow.backtrack_resembles (Array.getElem?_eq_getElem hk) starts ?_ fun v => ?_
  · change ((t.backtrack k).lits.map Lit.grow).toList = (t.lits.map Lit.grow).toList.take _
    rw [Array.toList_map, Array.toList_map, lits, List.map_take]
  · refine Fin.lastCases ?_ (fun w => ?_) v
    · rw [cells_grow_last, cells_grow_last]
      rfl
    · rw [cells_grow, cells_grow, cells]

theorem WellFormed.backtrack_assign (h : t.WellFormed) {k : Nat} (hk : k < t.starts.size)
    {l : Lit n} (fresh : t.eval l = none) (r : Reason) :
    ((t.assign l r).backtrack k).Resembles (t.backtrack k) := by
  obtain ⟨starts, lits, cells⟩ := h.backtrack_spec hk
  refine (h.assign fresh r).backtrack_resembles (Array.getElem?_eq_getElem hk) starts ?_ fun v => ?_
  · have le := h.starts_le t.starts[k] (by simp)
    rw [lits, lits_assign, Array.toList_push, List.take_append_of_le_length le]
  · rw [cells, cells_assign]
    split
    · next same =>
      -- the new literal is of a level above `k`, and its variable had no cell
      have absent : t.cells.get v = none := by
        rwa [eval_eq_none_iff, valueOf, Option.map_eq_none_iff, same] at fresh
      have above : ¬ t.level ≤ k := Nat.not_le.2 hk
      rw [absent, Option.filter_some, if_neg (by simpa using above)]
      rfl
    · rfl

theorem WellFormed.backtrack_openLevel (h : t.WellFormed) {k : Nat} (hk : k < t.starts.size) :
    (t.openLevel.backtrack k).Resembles (t.backtrack k) := by
  obtain ⟨starts, lits, cells⟩ := h.backtrack_spec hk
  have opened : t.openLevel.starts[k]? = some t.starts[k] := by
    rw [Trail.openLevel, Array.getElem?_push_lt hk]
  refine h.openLevel.backtrack_resembles opened ?_ lits cells
  rw [starts, Trail.openLevel, Array.toList_push,
    List.take_append_of_le_length (by simpa using Nat.le_of_lt hk)]

/-- Nothing is above the last level. -/
theorem WellFormed.backtrack_openLevel_self (h : t.WellFormed) :
    (t.openLevel.backtrack t.level).Resembles t := by
  have opened : t.openLevel.starts[t.level]? = some t.size := by
    rw [Trail.openLevel, level, Array.getElem?_push_size]
  refine h.openLevel.backtrack_resembles opened ?_ ?_ fun v => ?_
  · rw [Trail.openLevel, Array.toList_push, level, ← Array.length_toList, List.take_left]
  · change t.lits.toList = t.lits.toList.take t.lits.size
    rw [← Array.length_toList, List.take_length]
  · change t.cells.get v = (t.cells.get v).filter (·.level ≤ t.level)
    cases hc : t.cells.get v with
    | none => rfl
    | some c => rw [Option.filter_some, if_pos (by simpa using h.level_le hc)]

theorem WellFormed.backtrack_backtrack (h : t.WellFormed) {j k : Nat} (hk : k < t.starts.size)
    (below : k < j) : ((t.backtrack j).backtrack k).Resembles (t.backtrack k) := by
  by_cases hj : j < t.starts.size
  · obtain ⟨starts, lits, cells⟩ := h.backtrack_spec hk
    obtain ⟨starts', lits', cells'⟩ := h.backtrack_spec hj
    have opened : (t.backtrack j).starts[k]? = some t.starts[k] := by
      rw [← Array.getElem?_toList, starts', List.getElem?_take_of_lt below, Array.getElem?_toList,
        Array.getElem?_eq_getElem hk]
    have ordered : t.starts[k] ≤ t.starts[j] := by
      have := List.pairwise_iff_getElem.1 h.sorted k j (by simpa using hk) (by simpa using hj) below
      simpa using this
    refine (h.backtrack j).backtrack_resembles opened ?_ ?_ fun v => ?_
    · rw [starts, starts', List.take_take, Nat.min_eq_left (Nat.le_of_lt below)]
    · rw [lits, lits', List.take_take, Nat.min_eq_left ordered]
    · rw [cells, cells', Option.filter_filter]
      congr 1
      funext c
      simp only [← Bool.decide_and, decide_eq_decide]
      omega
  · rw [backtrack_of_level_le (Nat.not_lt.1 hj)]
    exact .refl _

/-! ## Histories -/

/-- The calls that lead from the empty trail to a trail, the last one outermost. A literal gets a
value only while it has none, be it at the current level or as a decision that opens a level. Setting
a literal with a decision as its reason is the latter; whatever reason `assign` is given, it opens no
level. -/
inductive History : {n : Nat} → Trail n → Type
  | empty : History .empty
  | grow {n : Nat} {t : Trail n} (before : History t) : History t.grow
  | assign {n : Nat} {t : Trail n} (before : History t) (l : Lit n) (reason : Reason)
      (fresh : t.eval l = none) : History (t.assign l reason)
  | openWith {n : Nat} {t : Trail n} (before : History t) (l : Lit n) (fresh : t.eval l = none) :
      History (t.openWith l)
  | openLevel {n : Nat} {t : Trail n} (before : History t) : History t.openLevel
  | backtrack {n : Nat} {t : Trail n} (before : History t) (level : Nat) :
      History (t.backtrack level)

/-- What the trail was just before the level above `k` was last opened, with the variables that
were allocated since then. -/
def History.beforeOpening (k : Nat) : {n : Nat} → {t : Trail n} → History t → Option (Trail n)
  | _, _, .empty => none
  | _, _, .grow before => (before.beforeOpening k).map Trail.grow
  | _, _, .assign before _ _ _ => before.beforeOpening k
  | _, _, .openWith (t := t) before _ _ => if t.level = k then some t else before.beforeOpening k
  | _, _, .openLevel (t := t) before => if t.level = k then some t else before.beforeOpening k
  | _, _, .backtrack before _ => before.beforeOpening k

theorem History.wellFormed (h : History t) : t.WellFormed := by
  induction h with
  | empty => exact wellFormed_empty
  | grow _ ih => exact ih.grow
  | assign _ l reason fresh ih => exact ih.assign fresh reason
  | openWith _ l fresh ih => exact ih.openLevel.assign fresh .decision
  | openLevel _ ih => exact ih.openLevel
  | backtrack _ level ih => exact ih.backtrack level

/-- The new level is the last opening of its number; every lower level was last opened earlier. -/
theorem WellFormed.exists_before_openLevel (h : t.WellFormed) {k : Nat} {found : Option (Trail n)}
    (earlier : k < t.starts.size → ∃ s, found = some s ∧ (t.backtrack k).Resembles s)
    (hk : k < t.openLevel.starts.size) :
    ∃ s, (if t.level = k then some t else found) = some s ∧
      (t.openLevel.backtrack k).Resembles s := by
  by_cases same : t.level = k
  · subst same
    exact ⟨t, if_pos rfl, h.backtrack_openLevel_self⟩
  · have lower : k < t.starts.size := by
      have : k < t.level + 1 := by rwa [← level_openLevel]
      exact Nat.lt_of_le_of_ne (Nat.le_of_lt_succ this) (Ne.symm same)
    obtain ⟨s, looked, resembles⟩ := earlier lower
    exact ⟨s, by rw [if_neg same, looked], (h.backtrack_openLevel lower).trans resembles⟩

/-- Going back to a level leads to what the trail was before the next one was last opened. -/
theorem History.exists_beforeOpening (h : History t) {k : Nat} (hk : k < t.starts.size) :
    ∃ s, h.beforeOpening k = some s ∧ (t.backtrack k).Resembles s := by
  induction h with
  | empty => exact absurd hk (Nat.not_lt_zero k)
  | grow before ih =>
    obtain ⟨s, looked, resembles⟩ := ih hk
    refine ⟨s.grow, ?_, (before.wellFormed.backtrack_grow hk).trans resembles.grow⟩
    rw [beforeOpening, looked, Option.map_some]
  | assign before l reason fresh ih =>
    obtain ⟨s, looked, resembles⟩ := ih hk
    exact ⟨s, looked, (before.wellFormed.backtrack_assign hk fresh reason).trans resembles⟩
  | openWith before l fresh ih =>
    obtain ⟨s, looked, resembles⟩ := before.wellFormed.exists_before_openLevel ih hk
    exact ⟨s, looked,
      (before.wellFormed.openLevel.backtrack_assign hk fresh .decision).trans resembles⟩
  | openLevel before ih => exact before.wellFormed.exists_before_openLevel ih hk
  | backtrack before j ih =>
    obtain ⟨below, hk⟩ := Nat.lt_min.1 (Nat.lt_of_lt_of_eq hk (before.wellFormed.level_backtrack j))
    obtain ⟨s, looked, resembles⟩ := ih hk
    exact ⟨s, looked, (before.wellFormed.backtrack_backtrack hk below).trans resembles⟩

/-- Going from `t` to `u` restores `s`. A variable that loses its value on the way is remembered with
it, and what is remembered of any other variable stays. -/
structure Restores (t u s : Trail n) : Prop where
  resembles : u.Resembles s
  phase_of_undone : ∀ (v : Fin n) (b : Bool), t.valueOf v = some b → u.valueOf v = none →
    u.phase.get v = b
  phase_of_other : ∀ v : Fin n, t.valueOf v = none ∨ u.valueOf v ≠ none →
    u.phase.get v = t.phase.get v

theorem WellFormed.restores (h : t.WellFormed) {k : Nat} (resembles : (t.backtrack k).Resembles s) :
    t.Restores (t.backtrack k) s where
  resembles := resembles
  phase_of_undone := by
    intro v b held lost
    obtain ⟨c, hc, rfl⟩ := Option.map_eq_some_iff.1 held
    refine h.phase_backtrack_of_lt hc (Nat.lt_of_not_le fun low => ?_)
    rw [valueOf, h.cells_backtrack, hc, Option.filter_some, if_pos (by simpa using low)] at lost
    cases lost
  phase_of_other := by
    intro v other
    refine h.phase_backtrack_of_le fun c hc => ?_
    by_contra high
    rw [valueOf, valueOf, h.cells_backtrack, hc, Option.filter_some, if_neg (by simpa using high)]
      at other
    simp at other

/-- Going back to a level below the last one restores what the trail was just before the level above
it was last opened, and remembers the signs of the variables that lose their values. Any other level
leaves the trail as it is. -/
theorem History.backtrack_undoes (h : History t) (k : Nat) :
    (k < t.level → ∃ s, h.beforeOpening k = some s ∧ t.Restores (t.backtrack k) s) ∧
      (t.level ≤ k → t.backtrack k = t) := by
  refine ⟨fun hk => ?_, backtrack_of_level_le⟩
  obtain ⟨s, looked, resembles⟩ := h.exists_beforeOpening hk
  exact ⟨s, looked, h.wellFormed.restores resembles⟩

/-- A decision above an empty level, then another empty level and a decision. Both are given up for
a decision with a consequence, and at last a fifth variable is allocated. -/
def reopenedHistory :=
  History.empty.grow.grow.grow.grow.openLevel
    |>.openWith ⟨0, true⟩ (by decide +kernel)
    |>.openLevel
    |>.openWith ⟨1, true⟩ (by decide +kernel)
    |>.backtrack 2
    |>.openWith ⟨2, true⟩ (by decide +kernel)
    |>.assign ⟨1, false⟩ (.clause 0) (by decide +kernel)
    |>.grow

/-- The third level was last opened by the third decision, which found the first literal alone. -/
theorem History.backtrack_undoes_reopenedHistory : ∃ (t : Trail 5) (h : History t) (s : Trail 5),
    t.level = 3 ∧ t.lits = #[⟨0, true⟩, ⟨2, true⟩, ⟨1, false⟩] ∧
      t.phase = #v[false, true, false, false, false] ∧ h.beforeOpening 2 = some s ∧
      s.lits = #[⟨0, true⟩] ∧ s.starts = #[0, 0] ∧ t.Restores (t.backtrack 2) s ∧
      (t.backtrack 2).phase = #v[false, false, true, false, false] := by
  obtain ⟨s, looked, restores⟩ := (reopenedHistory.backtrack_undoes 2).1 (by decide +kernel)
  refine ⟨_, reopenedHistory, s, by decide +kernel, by decide +kernel, by decide +kernel, looked, ?_,
    ?_, restores, by decide +kernel⟩
  · exact restores.resembles.lits.symm.trans (by decide +kernel)
  · exact restores.resembles.starts.symm.trans (by decide +kernel)

end Trail

end IncrementalSat
