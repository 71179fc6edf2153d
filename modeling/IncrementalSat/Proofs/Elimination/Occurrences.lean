import IncrementalSat.Engine.Elimination
import IncrementalSat.Proofs.Propagator.Storing

/-!
# Occurrence lists

An occurrence table covers a store when it lists every clause of one kind under each of its
literals, and nothing else. Indices of removed clauses may stay in the table.
-/
namespace IncrementalSat

namespace Occurrences

variable {n : Nat} {occurs : Occurrences n} {s s' : ClauseStore n} {learnt : Bool}

/-- The table lists the clauses of one kind under their literals. -/
structure Covers (occurs : Occurrences n) (s : ClauseStore n) (learnt : Bool) : Prop where
  listed : ∀ i c, s.Has i c → c.learnt = learnt → ∀ l ∈ c.lits, i ∈ (occurs.get l).toList
  used : ∀ l, ∀ i ∈ (occurs.get l).toList, i < s.size
  right : ∀ l, ∀ i ∈ (occurs.get l).toList, ∀ c, s.Has i c → c.learnt = learnt ∧ l ∈ c.lits
  nodup : ∀ l, (occurs.get l).toList.Nodup

/-! ## Recording -/

theorem toList_get_record (occurs : Occurrences n) (i : Nat) {lits : List (Lit n)}
    (nodup : lits.Nodup) (l : Lit n) : ((occurs.record i lits).get l).toList =
      (occurs.get l).toList ++ if l ∈ lits then [i] else [] := by
  unfold record
  induction lits generalizing occurs with
  | nil => simp
  | cons m ms ih =>
    obtain ⟨fresh, nodup⟩ := List.nodup_cons.1 nodup
    rw [List.foldl_cons, ih _ nodup, LitMap.get_push]
    by_cases same : m = l
    · subst same
      simp [fresh]
    · have different : l ≠ m := fun eq => same eq.symm
      simp [same, different]

/-- Recording many clauses appends, under each literal, the indices of those that hold it. -/
theorem toList_get_foldl (ls : List (Nat × Clause n)) (occurs : Occurrences n) (learnt : Bool)
    (nodup : ∀ x ∈ ls, x.2.lits.Nodup) (l : Lit n) :
    ((ls.foldl (fun occurs (i, c) =>
      if c.learnt == learnt then record occurs i c.lits else occurs) occurs).get l).toList =
    (occurs.get l).toList ++
      (ls.filter fun x => x.2.learnt == learnt && x.2.lits.contains l).map (·.1) := by
  induction ls generalizing occurs with
  | nil => simp
  | cons x ls ih =>
    obtain ⟨i, c⟩ := x
    rw [List.foldl_cons, ih _ fun x hx => nodup x (List.mem_cons_of_mem _ hx)]
    by_cases kind : (c.learnt == learnt) = true
    · simp only [kind, if_true, List.filter_cons, Bool.true_and,
        toList_get_record occurs i (nodup (i, c) (by simp))]
      by_cases mem : l ∈ c.lits <;> simp [mem]
    · simp [kind]

theorem covers_ofStore (h : s.WellFormed) (learnt : Bool) :
    (ofStore s learnt).Covers s learnt := by
  have nodup : ∀ x ∈ s.live, x.2.lits.Nodup := fun x hx =>
    (h.distinct x.1 x.2 ((s.mem_live_iff ..).1 hx)).of_map
  have get : ∀ l, ((ofStore s learnt).get l).toList =
      (s.live.filter fun x => x.2.learnt == learnt && x.2.lits.contains l).map (·.1) := by
    intro l
    unfold ofStore
    rw [toList_get_foldl _ _ _ nodup l]
    simp [LitMap.get, LitMap.replicate]
  have mem : ∀ l i, i ∈ ((ofStore s learnt).get l).toList ↔
      ∃ c, s.Has i c ∧ c.learnt = learnt ∧ l ∈ c.lits := by
    intro l i
    rw [get, List.mem_map]
    constructor
    · rintro ⟨⟨j, c⟩, hx, rfl⟩
      obtain ⟨live, kind⟩ := List.mem_filter.1 hx
      exact ⟨c, (s.mem_live_iff ..).1 live, by simpa using kind⟩
    · rintro ⟨c, hc, kind⟩
      refine ⟨(i, c), List.mem_filter.2 ⟨(s.mem_live_iff ..).2 hc, ?_⟩, rfl⟩
      simpa using kind
  refine ⟨?_, ?_, ?_, ?_⟩
  · exact fun i c hc kind l hl => (mem l i).2 ⟨c, hc, kind, hl⟩
  · intro l i hi
    obtain ⟨c, hc, -⟩ := (mem l i).1 hi
    exact hc.lt_size
  · intro l i hi c hc
    obtain ⟨d, hd, kind, hl⟩ := (mem l i).1 hi
    rw [hc.unique hd]
    exact ⟨kind, hl⟩
  · intro l
    rw [get]
    exact s.nodup_live.sublist (List.filter_sublist.map _)

namespace Covers

/-! ## Looking up -/

theorem mem_liveAt_iff (h : occurs.Covers s learnt) (l : Lit n) (i : Nat) :
    i ∈ occurs.liveAt s l ↔ ∃ c, s.Has i c ∧ c.learnt = learnt ∧ l ∈ c.lits := by
  unfold liveAt
  rw [List.mem_filter, ClauseStore.isLive_iff]
  constructor
  · rintro ⟨mem, c, hc⟩
    exact ⟨c, hc, h.right l i mem c hc⟩
  · rintro ⟨c, hc, kind, hl⟩
    exact ⟨h.listed i c hc kind l hl, c, hc⟩

/-- Every index in the table is in use. -/
theorem lookUp (h : occurs.Covers s learnt) (l : Lit n) :
    occurs.lookUp s l = .ok (occurs.liveAt s l) := by
  have used : (occurs.get l).all (· < s.size) = true := by
    rw [Array.all_eq_true_iff_forall_mem]
    intro i hi
    exact decide_eq_true (h.used l i (Array.mem_toList_iff.2 hi))
  rw [Occurrences.lookUp, if_pos used]

/-- No index is found twice under the two literals of a variable. -/
theorem nodup_liveAt (h : occurs.Covers s learnt) (wf : s.WellFormed) (v : Fin n) :
    (occurs.liveAt s ⟨v, true⟩ ++ occurs.liveAt s ⟨v, false⟩).Nodup := by
  refine List.nodup_append.2 ⟨(h.nodup _).filter _, (h.nodup _).filter _, ?_⟩
  rintro i hi j hj rfl
  obtain ⟨c, hc, -, positive⟩ := (h.mem_liveAt_iff _ i).1 hi
  obtain ⟨d, hd, -, negative⟩ := (h.mem_liveAt_iff _ i).1 hj
  rw [hd.unique hc] at negative
  have same := List.inj_on_of_nodup_map (wf.distinct i c hc) positive negative rfl
  simp at same

/-! ## Other stores -/

/-- The table still covers a store whose clauses of this kind are those of the first one, some
being removed. -/
theorem transfer (h : occurs.Covers s learnt) (size : s.size ≤ s'.size)
    (old : ∀ i d, s'.Has i d → i < s.size → ∃ c, s.Has i c ∧ Clause.Reordered c d)
    (fresh : ∀ i d, s'.Has i d → s.size ≤ i → d.learnt ≠ learnt) : occurs.Covers s' learnt where
  listed := by
    intro i d hd kind l hl
    by_cases earlier : i < s.size
    · obtain ⟨c, hc, perm, same⟩ := old i d hd earlier
      exact h.listed i c hc (same.symm.trans kind) l (perm.mem_iff.1 hl)
    · exact absurd kind (fresh i d hd (Nat.not_lt.1 earlier))
  used := fun l i hi => Nat.lt_of_lt_of_le (h.used l i hi) size
  right := by
    intro l i hi d hd
    obtain ⟨c, hc, perm, same⟩ := old i d hd (h.used l i hi)
    obtain ⟨kind, hl⟩ := h.right l i hi c hc
    exact ⟨same.trans kind, perm.mem_iff.2 hl⟩
  nodup := h.nodup

theorem of_matches (h : occurs.Covers s learnt) (same : s.Matches Clause.Reordered s') :
    occurs.Covers s' learnt := by
  refine h.transfer (Nat.le_of_eq same.size_eq.symm) (fun i d hd _ => same.has_of hd) ?_
  intro i d hd late
  have := hd.lt_size
  have := same.size_eq
  omega

theorem without (h : occurs.Covers s learnt) (size : s'.size = s.size)
    (sub : ∀ i d, s'.Has i d → s.Has i d) : occurs.Covers s' learnt := by
  refine h.transfer (Nat.le_of_eq size.symm) ?_ ?_
  · exact fun i d hd _ => ⟨d, sub i d hd, .refl d⟩
  · intro i d hd late
    have := hd.lt_size
    omega

/-- Storing a clause of the other kind needs no entry. -/
theorem push (h : occurs.Covers s learnt) {c : Clause n} (kind : c.learnt ≠ learnt) :
    occurs.Covers (s.push c) learnt := by
  refine h.transfer (by rw [s.size_push]; omega) ?_ ?_
  · intro i d hd earlier
    rcases (s.has_push_iff c i d).1 hd with old | ⟨here, -⟩
    · exact ⟨d, old, .refl d⟩
    · omega
  · intro i d hd late
    rcases (s.has_push_iff c i d).1 hd with old | ⟨-, rfl⟩
    · have := old.lt_size
      omega
    · exact kind

theorem record (h : occurs.Covers s learnt) {c : Clause n} (kind : c.learnt = learnt)
    (nodup : c.lits.Nodup) : (occurs.record s.size c.lits).Covers (s.push c) learnt := by
  have mem : ∀ l i, i ∈ ((occurs.record s.size c.lits).get l).toList ↔
      i ∈ (occurs.get l).toList ∨ i = s.size ∧ l ∈ c.lits := by
    intro l i
    rw [toList_get_record occurs _ nodup, List.mem_append]
    by_cases hl : l ∈ c.lits <;> simp [hl]
  refine ⟨?_, ?_, ?_, ?_⟩
  · intro i d hd kind' l hl
    rw [mem]
    rcases (s.has_push_iff c i d).1 hd with old | ⟨here, rfl⟩
    · exact .inl (h.listed i d old kind' l hl)
    · exact .inr ⟨here, hl⟩
  · intro l i hi
    rw [s.size_push]
    rcases (mem l i).1 hi with old | ⟨here, -⟩
    · have := h.used l i old
      omega
    · omega
  · intro l i hi d hd
    rcases (s.has_push_iff c i d).1 hd with old | ⟨here, rfl⟩
    · rcases (mem l i).1 hi with mem | ⟨here, -⟩
      · exact h.right l i mem d old
      · have := old.lt_size
        omega
    · rcases (mem l i).1 hi with mem | ⟨-, hl⟩
      · have := h.used l i mem
        omega
      · exact ⟨kind, hl⟩
  · intro l
    rw [toList_get_record occurs _ nodup]
    refine List.nodup_append.2 ⟨h.nodup l, by split <;> simp, ?_⟩
    intro i hi j hj
    have := h.used l i hi
    split at hj
    · rw [List.mem_singleton] at hj
      omega
    · cases hj

end Covers

end Occurrences

end IncrementalSat
