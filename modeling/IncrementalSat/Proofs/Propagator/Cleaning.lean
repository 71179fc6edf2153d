import IncrementalSat.Proofs.Propagator.Refinement

/-!
# Dropping learnt clauses and holes

Learnt clauses that explain nothing can go at any time. Compacting the store keeps the sequence of
clauses, and the rebuilt watch lists name each clause under its two watched literals.
-/
namespace IncrementalSat

namespace Propagator

variable {n : Nat} {p p' : Propagator n}

/-! ## Learnt clauses -/

theorem Without.fixes_iff {is : List Nat} (h : p.Without is p') (l : Lit n) :
    p'.Fixes l ↔ p.Fixes l := by
  rw [h.frame]
  rfl

/-- Learnt clauses are not missed. -/
theorem Refines.of_without {is : List Nat} (h : p.Without is p')
    (learnt : ∀ i ∈ is, ∀ c, p.store.Has i c → c.learnt = true) : p.Refines p' where
  sound := fun σ valid => ⟨fun i c hc => valid.clauses i c ((h.has i c).1 hc).2,
    fun l hl => valid.facts l ((h.fixes_iff l).1 hl)⟩
  preserves := by
    refine ⟨fun i c hc problem => ?_, fun l hl => (h.fixes_iff l).2 hl⟩
    refine .of_has ((h.has i c).2 ⟨?_, hc⟩) problem fun _ hl => hl
    intro mem
    rw [learnt i mem c hc] at problem
    cases problem
  occurs := by
    rintro v (⟨i, c, hc, l, hl, same⟩ | ⟨l, hl, same⟩)
    · exact .inl ⟨i, c, ((h.has i c).1 hc).2, l, hl, same⟩
    · exact .inr ⟨l, (h.fixes_iff l).1 hl, same⟩

/-- What is dropped during a search are learnt clauses. -/
theorem without_reduceLearnts (h : p.WellFormed) : Yields p.reduceLearnts fun p' =>
    ∃ is, p.Without is p' ∧ ∀ i ∈ is, ∀ c, p.store.Has i c → c.learnt = true := by
  unfold reduceLearnts
  set sorted := StableSort.sort (fun a b => Score.le a.2.activity b.2.activity) p.droppable
    with sorted_eq
  set dropped := sorted.take (sorted.length / 2) with dropped_eq
  have found : ∀ i ∈ dropped.map (·.1), ∃ c, p.store.Has i c ∧ c.learnt = true ∧
      p.explains i c = false := by
    intro i hi
    obtain ⟨⟨j, c⟩, hc, rfl⟩ := List.mem_map.1 hi
    have mem := (StableSort.sort_perm _ _).mem_iff.1 (List.mem_of_mem_take hc)
    simp only [droppable, List.mem_filter, Bool.and_eq_true, Bool.not_eq_true'] at mem
    exact ⟨c, (p.store.mem_live_iff j c).1 mem.1, mem.2.1.1, mem.2.2⟩
  have nodup : (dropped.map (·.1)).Nodup := by
    have sub : (p.droppable.map (·.1)).Sublist (p.store.live.map (·.1)) :=
      List.filter_sublist.map _
    have perm := (StableSort.sort_perm (fun a b => Score.le a.2.activity b.2.activity)
      p.droppable).map (·.1)
    have all : (sorted.map (·.1)).Nodup := perm.nodup_iff.2 (sub.nodup p.store.nodup_live)
    exact ((List.take_sublist _ _).map _).nodup all
  refine (h.removeAll nodup ?_).mono ?_
  · intro i hi
    obtain ⟨c, hc, -, idle⟩ := found i hi
    exact ⟨c, hc, fun _ => idle⟩
  · intro p' without
    refine ⟨_, without, ?_⟩
    intro i hi c hc
    obtain ⟨d, hd, learnt, -⟩ := found i hi
    exact hc.unique hd ▸ learnt

/-- Dropping learnt clauses during a search leaves the trail alone. -/
theorem reduceLearnts_spec (h : p.WellFormed) : Yields p.reduceLearnts fun p' =>
    p'.WellFormed ∧ p.Refines p' ∧ p' = { p with store := p'.store } := by
  refine (without_reduceLearnts h).mono ?_
  rintro p' ⟨is, without, learnt⟩
  exact ⟨without.wellFormed, .of_without without learnt, without.frame⟩

/-! ## Compaction -/

theorem clauses_compact (s : ClauseStore n) : s.compact.clauses = s.clauses := by
  unfold ClauseStore.compact ClauseStore.clauses
  simp only [Array.toList_filter, List.filterMap_filter]
  apply List.filterMap_congr
  rintro (_ | c) _ <;> rfl

theorem wellFormed_compact {s : ClauseStore n} (h : s.WellFormed) : s.compact.WellFormed where
  distinct := by
    intro i c hc
    have mem : c ∈ s.clauses := by
      rw [← clauses_compact, ClauseStore.mem_clauses_iff]
      exact ⟨i, hc⟩
    obtain ⟨j, hj⟩ := (s.mem_clauses_iff c).1 mem
    exact h.distinct j c hj
  problems := by
    change s.problems = (s.slots.filter _).countP _
    rw [h.problems, Array.countP_filter]
    congr 1
    funext o
    cases o <;> simp
  learnts := by
    change s.learnts = (s.slots.filter _).countP _
    rw [h.learnts, Array.countP_filter]
    congr 1
    funext o
    cases o <;> simp
  holes := by
    change 0 = (s.slots.filter _).countP _
    rw [Array.countP_filter, eq_comm, Array.countP_eq_zero]
    rintro (_ | c) _ <;> simp

/-- How often a clause is listed under a literal in the lists built from some clauses. -/
theorem count_foldl_push (live : List (Nat × Clause n)) (w : LitMap n (Array Nat))
    (different : ∀ x ∈ live, x.2.first ≠ x.2.second) (l : Lit n) (i : Nat) :
    ((live.foldl (fun w (i, c) => (w.push c.first i).push c.second i) w).get l).count i =
      (w.get l).count i + live.countP (fun x => x.1 = i ∧ x.2.Watches l) := by
  induction live generalizing w with
  | nil => rfl
  | cons x live ih =>
    obtain ⟨j, c⟩ := x
    have apart : c.first ≠ c.second := different (j, c) (by simp)
    rw [List.foldl_cons, ih _ fun y hy => different y (by simp [hy]), List.countP_cons]
    rw [count_push_push w apart]
    simp only [decide_eq_true_eq]
    omega

theorem count_watchesOf {s : ClauseStore n} (h : s.WellFormed) (l : Lit n) (i : Nat) :
    ((watchesOf s).get l).count i = s.live.countP (fun x => x.1 = i ∧ x.2.Watches l) := by
  have different : ∀ x ∈ s.live, x.2.first ≠ x.2.second := by
    rintro ⟨j, c⟩ hx same
    have nodup := h.distinct j c ((s.mem_live_iff j c).1 hx)
    simp only [Clause.lits, List.map_cons, List.nodup_cons, List.mem_cons, not_or] at nodup
    exact nodup.1.1 (congrArg Literal.var same)
  rw [watchesOf, count_foldl_push _ _ different]
  have empty : ((LitMap.replicate n #[] : LitMap n (Array Nat)).get l) = #[] := by
    unfold LitMap.get LitMap.replicate
    split <;> simp
  simp [empty]

/-- Among entries under distinct keys, at most one matches. -/
theorem countP_key {α : Type} {live : List (Nat × α)} (nodup : (live.map (·.1)).Nodup) {i : Nat}
    {a : α} (mem : (i, a) ∈ live) (q : α → Bool) :
    live.countP (fun x => x.1 = i ∧ q x.2) = if q a then 1 else 0 := by
  induction live with
  | nil => cases mem
  | cons x live ih =>
    obtain ⟨fresh, nodup⟩ := List.nodup_cons.1 nodup
    rw [List.countP_cons]
    rcases List.mem_cons.1 mem with rfl | mem
    · have none : live.countP (fun x => x.1 = i ∧ q x.2) = 0 := by
        rw [List.countP_eq_zero]
        intro y hy
        simp only [decide_eq_true_eq, not_and]
        rintro rfl
        exact absurd (List.mem_map_of_mem hy) fresh
      rw [none]
      simp
    · have other : x.1 ≠ i := by
        intro same
        exact fresh (List.mem_map.2 ⟨(i, a), mem, same.symm⟩)
      rw [ih nodup mem]
      simp [other]

theorem WellFormed.compact (h : p.WellFormed) (root : p.trail.level = 0) :
    ({ p with store := p.store.compact, watches := watchesOf p.store.compact } :
      Propagator n).WellFormed where
  trail := h.trail
  store := wellFormed_compact h.store
  justified := fun i l hi => (h.justified i l hi).of_root root
  listed := by
    intro i c hc l
    have mem := (p.store.compact.mem_live_iff i c).2 hc
    change ((watchesOf p.store.compact).get l).count i = _
    rw [count_watchesOf (wellFormed_compact h.store)]
    have count := countP_key p.store.compact.nodup_live mem fun d => decide (d.Watches l)
    simpa using count
  inRange := by
    intro l i hi
    change i ∈ (watchesOf p.store.compact).get l at hi
    rw [← Array.count_pos_iff, count_watchesOf (wellFormed_compact h.store),
      List.countP_pos_iff] at hi
    obtain ⟨⟨j, c⟩, hc, same⟩ := hi
    simp only [decide_eq_true_eq] at same
    exact same.1 ▸ ((p.store.compact.mem_live_iff j c).1 hc).lt_size
  head_le := h.head_le
  current := h.current
  served := by
    intro i c hc w hw k hk at_k
    have mem : c ∈ p.store.clauses := by
      rw [← clauses_compact, ClauseStore.mem_clauses_iff]
      exact ⟨i, hc⟩
    obtain ⟨j, hj⟩ := (p.store.mem_clauses_iff c).1 mem
    exact h.served j c hj w hw k hk at_k

/-- Only the sequence of clauses matters, not where they are stored. -/
theorem Refines.of_clauses_eq (clauses : p'.store.clauses = p.store.clauses)
    (trail : p'.trail = p.trail) : p.Refines p' := by
  have back : ∀ i c, p'.store.Has i c → ∃ j, p.store.Has j c := by
    intro i c hc
    rw [← ClauseStore.mem_clauses_iff, ← clauses, ClauseStore.mem_clauses_iff]
    exact ⟨i, hc⟩
  have forth : ∀ i c, p.store.Has i c → ∃ j, p'.store.Has j c := by
    intro i c hc
    rw [← ClauseStore.mem_clauses_iff, clauses, ClauseStore.mem_clauses_iff]
    exact ⟨i, hc⟩
  have fixes : ∀ l, p'.Fixes l ↔ p.Fixes l := fun l => by rw [Fixes, trail, Fixes]
  refine ⟨?_, ?_, ?_⟩
  · intro σ valid
    refine ⟨?_, fun l hl => valid.facts l ((fixes l).1 hl)⟩
    intro i c hc
    obtain ⟨j, hj⟩ := back i c hc
    exact valid.clauses j c hj
  · refine ⟨fun i c hc problem => ?_, fun l hl => (fixes l).2 hl⟩
    obtain ⟨j, hj⟩ := forth i c hc
    exact .of_has hj problem fun _ hl => hl
  · rintro v (⟨i, c, hc, l, hl, same⟩ | ⟨l, hl, same⟩)
    · obtain ⟨j, hj⟩ := back i c hc
      exact .inl ⟨j, c, hj, l, hl, same⟩
    · exact .inr ⟨l, (fixes l).1 hl, same⟩

/-- A store with few holes is left as it is. -/
theorem collectGarbage_of_few (root : p.trail.level = 0) (few : p.store.holes * 2 ≤ p.store.size) :
    p.collectGarbage = .ok p := by
  unfold collectGarbage requireRoot
  rw [if_pos root]
  exact if_pos few

theorem collectGarbage_of_many (root : p.trail.level = 0)
    (many : p.store.size < p.store.holes * 2) : p.collectGarbage =
      .ok { p with store := p.store.compact, watches := watchesOf p.store.compact } := by
  unfold collectGarbage requireRoot
  rw [if_pos root]
  exact if_neg (Nat.not_le_of_lt many)

/-- Compaction happens at the root level only, and keeps the sequence of clauses. -/
theorem collectGarbage_spec (h : p.WellFormed) (root : p.trail.level = 0) :
    Yields p.collectGarbage fun p' => p'.WellFormed ∧ p'.store.clauses = p.store.clauses ∧
      p' = { p with store := p'.store, watches := p'.watches } := by
  rcases Nat.lt_or_ge p.store.size (p.store.holes * 2) with many | few
  · exact ⟨_, collectGarbage_of_many root many, h.compact root, clauses_compact _, rfl⟩
  · exact ⟨p, collectGarbage_of_few root few, h, rfl, rfl⟩

/-- Afterwards there is no reason to compact the store. -/
theorem few_holes_of_collectGarbage (ran : p.collectGarbage = .ok p') :
    p'.store.holes * 2 ≤ p'.store.size := by
  obtain ⟨-, -, rest⟩ := bind_eq_ok_iff.1 ran
  split at rest
  · next few =>
    cases rest
    exact few
  · cases rest
    exact Nat.zero_le _

end Propagator

end IncrementalSat
