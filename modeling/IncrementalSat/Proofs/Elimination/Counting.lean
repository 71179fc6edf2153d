import IncrementalSat.Proofs.Elimination.Variables
import IncrementalSat.Proofs.Engine.Simplification

/-!
# Counting clauses

The counters of a well-formed store are numbers of its clauses, so they are compared by comparing
the lists of clauses. Simplifying and removing clauses increase neither. The removal of the clauses
on a variable decreases the number of problem clauses by those that an occurrence table finds.
-/
namespace IncrementalSat

variable {n : Nat}

namespace ClauseStore

variable {s : ClauseStore n} {v : Fin n} {c : Clause n}

/-- The second store has no more clauses of either kind. -/
structure NoMore (s s' : ClauseStore n) : Prop where
  problems : s'.problems ≤ s.problems
  learnts : s'.learnts ≤ s.learnts

theorem NoMore.refl (s : ClauseStore n) : s.NoMore s := ⟨Nat.le_refl _, Nat.le_refl _⟩

theorem NoMore.trans {s s' s'' : ClauseStore n} (h : s.NoMore s') (h' : s'.NoMore s'') :
    s.NoMore s'' :=
  ⟨Nat.le_trans h'.problems h.problems, Nat.le_trans h'.learnts h.learnts⟩

/-- The problem clauses on a variable, in storage order. -/
def problemsOn (s : ClauseStore n) (v : Fin n) : List (Clause n) :=
  s.clauses.filter fun c => !c.learnt && c.lits.any (·.var == v)

theorem mem_problemsOn_iff : c ∈ s.problemsOn v ↔
    ∃ i, s.Has i c ∧ c.learnt = false ∧ ∃ l ∈ c.lits, l.var = v := by
  simp [problemsOn, mem_clauses_iff]

end ClauseStore

/-- An occurrence table finds each problem clause on the variable once. -/
theorem Occurrences.Covers.length_liveAt {table : Occurrences n} {s : ClauseStore n}
    (h : table.Covers s false) (wf : s.WellFormed) (v : Fin n) :
    (table.liveAt s ⟨v, true⟩).length + (table.liveAt s ⟨v, false⟩).length =
      (s.problemsOn v).length := by
  let found := s.live.filter fun x => !x.2.learnt && x.2.lits.any (·.var == v)
  have nodup : (found.map (·.1)).Nodup := s.nodup_live.sublist (List.filter_sublist.map _)
  have perm : (table.liveAt s ⟨v, true⟩ ++ table.liveAt s ⟨v, false⟩).Perm (found.map (·.1)) := by
    refine (List.perm_ext_iff_of_nodup (h.nodup_liveAt wf v) nodup).2 fun i => ?_
    rw [Propagator.mem_liveAt_var_iff h]
    simp [found, s.mem_live_iff]
  have same : s.problemsOn v = found.map (·.2) := by
    rw [ClauseStore.problemsOn, s.clauses_eq_map_live, List.filter_map]
    rfl
  rw [← List.length_append, perm.length_eq, same, List.length_map, List.length_map]

namespace Propagator

variable {p p' : Propagator n} {v : Fin n}

/-! ## Removing the clauses on a variable -/

namespace Purged

variable (h : p.Purged v p')

include h

theorem slots : p'.store.slots =
    p.store.slots.map (·.bind (Option.guard fun c => !c.lits.any (·.var == v))) := by
  refine Array.ext_getElem? fun j => ?_
  have size : p'.store.slots.size = p.store.slots.size := h.size
  have kept : ∀ c, p'.store.slots[j]? = some (some c) ↔
      p.store.slots[j]? = some (some c) ∧ ∀ l ∈ c.lits, l.var ≠ v := h.has j
  rw [Array.getElem?_map]
  by_cases inside : j < p.store.slots.size
  · obtain ⟨slot, at_j⟩ : ∃ slot, p'.store.slots[j]? = some slot :=
      ⟨_, Array.getElem?_eq_getElem (size ▸ inside)⟩
    obtain ⟨old, before⟩ : ∃ old, p.store.slots[j]? = some old :=
      ⟨_, Array.getElem?_eq_getElem inside⟩
    rw [at_j, before] at kept ⊢
    refine congrArg some (Option.ext fun c => ?_)
    have := kept c
    simpa [Option.guard, Option.bind_eq_some_iff, and_comm] using this
  · rw [Array.getElem?_eq_none (by omega), Array.getElem?_eq_none (by omega)]
    rfl

theorem clauses : p'.store.clauses = p.store.clauses.filter fun c => !c.lits.any (·.var == v) := by
  rw [clauses_of_slots h.slots, List.filterMap_eq_filter]

/-- A problem clause is on the variable, or is left. -/
theorem problems_add (wf : p.store.WellFormed) :
    p'.store.problems + (p.store.problemsOn v).length = p.store.problems := by
  let mentions : Clause n → Bool := fun c => c.lits.any (·.var == v)
  have on : (p.store.problemsOn v).length =
      (p.store.clauses.filter mentions).countP (!·.learnt) := by
    rw [ClauseStore.problemsOn, List.countP_filter, List.countP_eq_length_filter]
  have left : p'.store.problems =
      (p.store.clauses.filter fun c => !mentions c).countP (!·.learnt) := by
    rw [h.wellFormed.store.problems_eq, h.clauses]
  have split := List.countP_eq_countP_filter_add p.store.clauses (!·.learnt) mentions
  rw [wf.problems_eq, on, left, Nat.add_comm, split]

theorem learnts_le (wf : p.store.WellFormed) : p'.store.learnts ≤ p.store.learnts := by
  rw [h.wellFormed.store.learnts_eq, wf.learnts_eq, h.clauses]
  exact List.filter_sublist.countP_le

end Purged

/-! ## Simplifying -/

theorem learnt_of_clear? {t : Trail n} {c d : Clause n} (left : t.clear? c = some d) :
    d.learnt = c.learnt := by
  unfold Trail.clear? Clause.withLits? at left
  split at left
  · cases left
  · split at left
    · cases left
      rfl
    · cases left

theorem Clears.countP_le (h : p.Clears p') (f : Bool → Bool) :
    p'.store.clauses.countP (f ·.learnt) ≤ p.store.clauses.countP (f ·.learnt) := by
  rw [h.clauses, List.countP_filterMap]
  refine List.countP_mono_left fun c _ counted => ?_
  cases left : p.trail.clear? c with
  | none => simp [left] at counted
  | some d => simpa [left, learnt_of_clear? left] using counted

theorem Clears.noMore (h : p.Clears p') (wf : p.store.WellFormed) (wf' : p'.store.WellFormed) :
    p.store.NoMore p'.store where
  problems := by
    rw [wf'.problems_eq, wf.problems_eq]
    exact h.countP_le (!·)
  learnts := by
    rw [wf'.learnts_eq, wf.learnts_eq]
    exact h.countP_le id

end Propagator

end IncrementalSat
