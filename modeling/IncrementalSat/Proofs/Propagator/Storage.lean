import IncrementalSat.Proofs.Propagator.Cleaning
import Mathlib.Algebra.BigOperators.Group.List.Lemmas

/-!
# The clauses in storage

The counters of the store say how many problem clauses, learnt clauses and holes there are. A hole
cannot be removed once more. Closing the holes keeps the sequence of clauses, and the watch lists name
each of them twice.
-/
namespace IncrementalSat

namespace ClauseStore

variable {n : Nat} {s s' : ClauseStore n} {i : Nat}

/-! ## Counters -/

/-- Every clause has two literals or more, over distinct variables, and the counters are right. -/
structure Accurate (s : ClauseStore n) : Prop where
  long : ∀ c ∈ s.clauses, 2 ≤ c.lits.length
  distinct : ∀ c ∈ s.clauses, (c.lits.map (·.var)).Nodup
  problems : s.problems = s.clauses.countP (!·.learnt)
  learnts : s.learnts = s.clauses.countP (·.learnt)
  holes : s.holes = s.slots.countP (·.isNone)

theorem WellFormed.accurate (h : s.WellFormed) : s.Accurate where
  long := by
    intro c _
    simp [Clause.lits]
  distinct := by
    intro c hc
    obtain ⟨i, hi⟩ := (s.mem_clauses_iff c).1 hc
    exact h.distinct i c hi
  problems := h.problems_eq
  learnts := h.learnts_eq
  holes := h.holes

/-- Without holes there is a clause at every index. -/
theorem WellFormed.exists_has (h : s.WellFormed) (full : s.holes = 0) (hi : i < s.size) :
    ∃ c, s.Has i c := by
  rw [h.holes, Array.countP_eq_zero] at full
  have slot : s.slots[i] ≠ none := by
    simpa using full s.slots[i] (Array.getElem_mem hi)
  obtain ⟨c, hc⟩ := Option.ne_none_iff_exists'.1 slot
  exact ⟨c, Array.getElem?_eq_some_iff.2 ⟨hi, hc⟩⟩

theorem WellFormed.length_clauses (h : s.WellFormed) (full : s.holes = 0) :
    s.clauses.length = s.size := by
  rw [clauses, List.length_filterMap_eq_countP, List.countP_eq_length.2, Array.length_toList, size]
  intro slot hslot
  obtain ⟨i, hi, rfl⟩ := Array.mem_iff_getElem.1 (Array.mem_toList_iff.1 hslot)
  obtain ⟨c, hc⟩ := h.exists_has full hi
  obtain ⟨_, at_i⟩ := Array.getElem?_eq_some_iff.1 hc
  simp [at_i]

/-! ## Removing -/

/-- A hole is not removed again. -/
theorem remove_of_hole (hole : s.slots[i]? = some none) : s.remove i = .error .clauseRemoved := by
  unfold remove fetch
  rw [hole]
  rfl

/-- What is removed was live, and leaves a hole. -/
theorem slots_of_remove (removed : s.remove i = .ok s') :
    s.isLive i = true ∧ s'.slots = s.slots.setIfInBounds i none := by
  obtain ⟨c, fetched, rest⟩ := bind_eq_ok_iff.1 removed
  refine ⟨(s.isLive_iff i).2 ⟨c, has_of_fetch fetched⟩, ?_⟩
  dsimp only at rest
  split at rest
  · split at rest
    · cases rest
    · cases rest
      rfl
  · split at rest
    · cases rest
    · cases rest
      rfl

theorem isLive_of_remove (removed : s.remove i = .ok s') (j : Nat) :
    s'.isLive j = true ↔ s.isLive j = true ∧ j ≠ i := by
  unfold isLive
  rw [(slots_of_remove removed).2, Array.getElem?_setIfInBounds]
  by_cases same : i = j
  · subst same
    by_cases inside : i < s.slots.size <;> simp [inside]
  · simp [same, Ne.symm same]

end ClauseStore

namespace Lit

/-- The literals of all variables. -/
def all (n : Nat) : List (Lit n) := ((List.finRange n).product [true, false]).map fun x => ⟨x.1, x.2⟩

theorem mem_all {n : Nat} (l : Lit n) : l ∈ all n := by
  obtain ⟨v, sign⟩ := l
  simp [all]

theorem nodup_all (n : Nat) : (all n).Nodup := by
  apply List.Nodup.map
  · rintro ⟨v, a⟩ ⟨w, b⟩ same
    simpa using same
  · exact (List.nodup_finRange n).product (by decide)

end Lit

/-- The entries of all lists in a table. -/
def LitMap.entries {n : Nat} {α : Type} (w : LitMap n (Array α)) : List α :=
  (Lit.all n).flatMap fun l => (w.get l).toList

namespace Propagator

variable {n : Nat} {p q : Propagator n} {is : List Nat}

/-- Clauses are removed once each: those at the indices were live, and no others are removed. -/
theorem isLive_of_removeAll (removed : removeAll is p = .ok q) : is.Nodup ∧
    (∀ i ∈ is, p.store.isLive i = true) ∧
      ∀ j, q.store.isLive j = true ↔ p.store.isLive j = true ∧ j ∉ is := by
  induction is generalizing p with
  | nil =>
    cases removed
    simp
  | cons i is ih =>
    obtain ⟨p', first, rest⟩ := bind_eq_ok_iff.1 removed
    obtain ⟨s, removed', result⟩ := bind_eq_ok_iff.1 first
    cases result
    have kept := ClauseStore.isLive_of_remove removed'
    obtain ⟨nodup, live, left⟩ := ih rest
    have fresh : i ∉ is := fun again => ((kept i).1 (live i again)).2 rfl
    refine ⟨List.nodup_cons.2 ⟨fresh, nodup⟩, ?_, fun j => ?_⟩
    · intro j hj
      rcases List.mem_cons.1 hj with rfl | hj
      · exact (ClauseStore.slots_of_remove removed').1
      · exact ((kept j).1 (live j hj)).1
    · rw [left, kept, List.mem_cons, not_or, and_assoc]

/-! ## Watch lists -/

/-- A clause has two entries over all watch lists. -/
theorem Linked.count_entries (h : p.Linked) {i : Nat} {c : Clause n} (hc : p.store.Has i c) :
    p.watches.entries.count i = 2 := by
  have watched : ((Lit.all n).filter fun l => decide (c.Watches l)).Perm [c.first, c.second] := by
    have different : c.first ≠ c.second := fun same => h.watched_ne hc (congrArg Literal.var same)
    apply (List.perm_ext_iff_of_nodup ((Lit.nodup_all n).filter _) (by simp [different])).2
    intro l
    rw [List.mem_filter, decide_eq_true_iff]
    simp [Lit.mem_all, Clause.Watches]
  have counts : (List.count i ∘ fun l => (p.watches.get l).toList) =
      fun l => if c.Watches l then 1 else 0 := by
    funext l
    rw [Function.comp_apply, Array.count_toList, h.listed i c hc]
  rw [LitMap.entries, List.count_flatMap, counts, List.sum_map_ite]
  simp [watched.length_eq]

/-- Without holes there are no other entries. -/
theorem Linked.length_entries (h : p.Linked) (full : p.store.holes = 0) :
    p.watches.entries.length = 2 * p.store.clauses.length := by
  have twice : ∀ i < p.store.size, p.watches.entries.count i = 2 := by
    intro i hi
    obtain ⟨c, hc⟩ := h.store.exists_has full hi
    exact h.count_entries hc
  have indices : p.watches.entries.dedup.Perm (List.range p.store.size) := by
    apply (List.perm_ext_iff_of_nodup (List.nodup_dedup _) List.nodup_range).2
    intro i
    rw [List.mem_dedup, List.mem_range]
    constructor
    · intro mem
      obtain ⟨l, -, hi⟩ := List.mem_flatMap.1 mem
      exact h.inRange l i (Array.mem_toList_iff.1 hi)
    · intro hi
      rw [← List.count_pos_iff, twice i hi]
      exact Nat.two_pos
  calc p.watches.entries.length
      = (p.watches.entries.dedup.map fun i => p.watches.entries.count i).sum :=
        (List.sum_map_count_dedup_eq_length _).symm
    _ = ((List.range p.store.size).map fun i => p.watches.entries.count i).sum :=
        (indices.map _).sum_eq
    _ = ((List.range p.store.size).map fun _ => 2).sum := by
        rw [List.map_congr_left fun i hi => twice i (List.mem_range.1 hi)]
    _ = 2 * p.store.clauses.length := by
        rw [h.store.length_clauses full]
        simp [Nat.mul_comm]

/-! ## Closing the holes -/

/-- What closing the holes leads to. -/
structure Collected (p q : Propagator n) : Prop where
  clauses : q.store.clauses = p.store.clauses
  few : q.store.holes * 2 ≤ q.store.size
  accurate : q.store.Accurate
  entries : ∀ i c, q.store.Has i c → q.watches.entries.count i = 2
  rebuilt : p.store.size < p.store.holes * 2 →
    q.store.holes = 0 ∧ q.watches.entries.length = 2 * q.store.clauses.length

theorem WellFormed.collects (h : p.WellFormed) (root : p.trail.level = 0) :
    Yields p.collectGarbage p.Collected := by
  obtain ⟨q, collected, wf, clauses, -⟩ := collectGarbage_spec h root
  refine ⟨q, collected, clauses, few_holes_of_collectGarbage collected, wf.store.accurate,
    fun i c hc => wf.toLinked.count_entries hc, fun many => ?_⟩
  have full : q.store.holes = 0 := by
    rw [collectGarbage_of_many root many] at collected
    cases collected
    rfl
  exact ⟨full, wf.toLinked.length_entries full⟩

end Propagator

end IncrementalSat
