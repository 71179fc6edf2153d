import IncrementalSat.Proofs.Engine.Consistency

/-!
# Simplified engines

Between calls everything is propagated, so simplifying only cleans the clauses up. Index by index a
clause becomes a hole, or loses its false literals, of which it does not watch any; compacting the
store changes indices only. In what results no variable of a clause is assigned and too few slots
are holes to compact them again, so simplifying once more changes nothing.
-/
namespace IncrementalSat

variable {n : Nat}

/-- What is left of a clause at level zero: nothing if it has a true literal, and otherwise the
literals that are not false. -/
def Trail.clear? (t : Trail n) (c : Clause n) : Option (Clause n) :=
  if c.lits.any fun l => t.eval l == some true then none
  else c.withLits? (c.lits.filter fun l => t.eval l != some false)

namespace Propagator

variable {p p' : Propagator n} {i : Nat} {c : Clause n}

/-- What simplifying leads to where everything is propagated. -/
structure Clears (p p' : Propagator n) : Prop where
  clauses : p'.store.clauses = p.store.clauses.filterMap p.trail.clear?
  enough : ∀ c ∈ p.store.clauses, p.Satisfied c ∨
    2 ≤ (c.lits.filter fun l => p.trail.eval l != some false).length
  unassigned : ∀ c ∈ p'.store.clauses, ∀ l ∈ c.lits, p'.trail.eval l = none
  frame : p' = { p with store := p'.store, watches := p'.watches }

/-! ## One clause -/

/-- A clause without a true literal watches two unassigned ones. -/
theorem clear?_spec (h : p.WellFormed) (done : p.head = p.trail.size) (hc : p.store.Has i c) :
    p.Satisfied c ∧ p.trail.clear? c = none ∨ ¬ p.Satisfied c ∧ p.trail.clear? c =
      some { c with rest := c.rest.filter fun l => p.trail.eval l != some false } := by
  unfold Trail.clear?
  by_cases satisfied : p.Satisfied c
  · exact .inl ⟨satisfied, if_pos (by simpa [Satisfied] using satisfied)⟩
  · obtain ⟨first, second⟩ := (h.satisfied_or_unassigned done hc).resolve_left satisfied
    refine .inr ⟨satisfied, ?_⟩
    rw [if_neg (by simpa [Satisfied] using satisfied)]
    simp [Clause.lits, Clause.withLits?, first, second]

/-- The clause becomes what is left of it. -/
theorem slots_simplifyClause (h : p.WellFormed) (done : p.head = p.trail.size)
    (hc : p.store.Has i c) (ran : p.simplifyClause i c = .ok p') :
    p'.store.slots = p.store.slots.setIfInBounds i (p.trail.clear? c) := by
  unfold simplifyClause at ran
  rcases clear?_spec h done hc with ⟨satisfied, gone⟩ | ⟨unsatisfied, left⟩
  · rw [if_pos (by simpa [Satisfied] using satisfied)] at ran
    obtain ⟨store, removed, result⟩ := bind_eq_ok_iff.1 ran
    cases result
    rw [gone]
    exact ((h.store.remove hc).of_eq removed).2
  · have kept : c.withLits? (c.lits.filter fun l => p.trail.eval l != some false) =
        some { c with rest := c.rest.filter fun l => p.trail.eval l != some false } := by
      unfold Trail.clear? at left
      rwa [if_neg (by simpa [Satisfied] using unsatisfied)] at left
    rw [if_neg (by simpa [Satisfied] using unsatisfied), kept] at ran
    rw [left]
    split at ran
    · cases ran
      rfl
    · next none =>
      cases ran
      have same : c.rest.filter (fun l => p.trail.eval l != some false) = c.rest := by
        rw [List.filter_eq_self]
        simpa using none
      rw [same]
      refine Array.ext_getElem? fun j => ?_
      rw [Array.getElem?_setIfInBounds]
      split
      · next at_i =>
        subst at_i
        have inside : i < p.store.slots.size := hc.lt_size
        rw [if_pos inside]
        exact hc
      · rfl

/-- A clause without assigned literals stays. -/
theorem simplifyClause_of_unassigned (unassigned : ∀ l ∈ c.lits, p.trail.eval l = none) (i : Nat) :
    p.simplifyClause i c = .ok p := by
  have rest : ∀ l ∈ c.rest, p.trail.eval l = none := fun l hl =>
    unassigned l (by simp [Clause.lits, hl])
  unfold simplifyClause
  rw [if_neg (by simp_all), if_neg (by simp_all)]

/-! ## All clauses -/

/-- The clauses that have been gone through have become what is left of them. -/
theorem getElem?_simplifyClauses (live : List (Nat × Clause n)) (p : Propagator n)
    (h : p.WellFormed) (root : p.trail.level = 0) (done : p.head = p.trail.size)
    (found : ∀ x ∈ live, p.store.Has x.1 x.2) (nodup : (live.map (·.1)).Nodup)
    (ran : simplifyClauses live p = .ok p') (j : Nat) :
    p'.store.slots[j]? = if j ∈ live.map (·.1) then p.store.slots[j]?.map (·.bind p.trail.clear?)
      else p.store.slots[j]? := by
  induction live generalizing p with
  | nil =>
    cases ran
    simp
  | cons x live ih =>
    obtain ⟨i, c⟩ := x
    obtain ⟨fresh, nodup⟩ := List.nodup_cons.1 nodup
    obtain ⟨q, first, later⟩ := bind_eq_ok_iff.1 ran
    have hc := found (i, c) (by simp)
    have slots := slots_simplifyClause h done hc first
    obtain ⟨wf, frame, others, -⟩ := (simplifyClause_spec h root done hc).of_eq first
    have trail : q.trail = p.trail := by rw [frame]
    have found' : ∀ x ∈ live, q.store.Has x.1 x.2 := by
      intro x hx
      refine (others x.1 ?_ x.2).2 (found x (by simp [hx]))
      intro same
      exact fresh (List.mem_map.2 ⟨x, hx, same⟩)
    have head : q.head = q.trail.size := by rw [frame]; exact done
    rw [ih q wf (trail ▸ root) head found' nodup later, slots, trail, Array.getElem?_setIfInBounds]
    have stored : p.store.slots[i]? = some (some c) := hc
    have inside : i < p.store.slots.size := hc.lt_size
    rw [List.map_cons]
    by_cases at_i : i = j
    · subst at_i
      rw [if_neg fresh, if_pos rfl, if_pos inside, if_pos List.mem_cons_self, stored]
      rfl
    · simp only [List.mem_cons, at_i, Ne.symm at_i, false_or, if_false]

theorem slots_simplifyClauses (h : p.WellFormed) (root : p.trail.level = 0)
    (done : p.head = p.trail.size) (ran : simplifyClauses p.store.live p = .ok p') :
    p'.store.slots = p.store.slots.map (·.bind p.trail.clear?) := by
  have found : ∀ x ∈ p.store.live, p.store.Has x.1 x.2 := fun x hx =>
    (p.store.mem_live_iff x.1 x.2).1 hx
  refine Array.ext_getElem? fun j => ?_
  rw [getElem?_simplifyClauses _ p h root done found p.store.nodup_live ran, Array.getElem?_map]
  split
  · rfl
  · next absent =>
    match at_j : p.store.slots[j]? with
    | none => rfl
    | some none => rfl
    | some (some c) =>
      exact absurd (List.mem_map_of_mem ((p.store.mem_live_iff j c).2 at_j)) absent

theorem simplifyClauses_of_unassigned (live : List (Nat × Clause n))
    (unassigned : ∀ x ∈ live, ∀ l ∈ x.2.lits, p.trail.eval l = none) :
    simplifyClauses live p = .ok p := by
  induction live with
  | nil => rfl
  | cons x live ih =>
    obtain ⟨first, later⟩ := List.forall_mem_cons.1 unassigned
    rw [simplifyClauses, simplifyClause_of_unassigned first]
    exact ih later

/-! ## Simplifying -/

theorem clauses_of_slots {s s' : ClauseStore n} {f : Clause n → Option (Clause n)}
    (slots : s'.slots = s.slots.map (·.bind f)) : s'.clauses = s.clauses.filterMap f := by
  unfold ClauseStore.clauses
  rw [slots, Array.toList_map, List.filterMap_map, List.filterMap_filterMap]
  rfl

theorem unassigned_of_clear? {t : Trail n} {d : Clause n} (left : t.clear? c = some d) :
    ∀ l ∈ d.lits, t.eval l = none := by
  unfold Trail.clear? at left
  split at left
  · cases left
  · next unsatisfied =>
    have lits : d.lits = c.lits.filter fun l => t.eval l != some false := by
      unfold Clause.withLits? at left
      split at left
      · next split =>
        cases left
        exact split.symm
      · cases left
    intro l hl
    rw [lits, List.mem_filter] at hl
    simp only [List.any_eq_true, not_exists, not_and] at unsatisfied
    have possible := unsatisfied l hl.1
    cases value : t.eval l with
    | none => rfl
    | some b => cases b <;> simp_all

/-- Where everything is propagated, simplifying leaves clauses without assigned literals, and what
it leads to is simplified already. -/
theorem simplify_of_done (h : p.WellFormed) (root : p.trail.level = 0)
    (consistent : p.consistent = true) (done : p.head = p.trail.size) :
    ∃ p', p.simplify = .ok (true, p') ∧ p.Clears p' ∧ p'.simplify = .ok (true, p') := by
  have found : ∀ x ∈ p.store.live, p.store.Has x.1 x.2 := fun x hx =>
    (p.store.mem_live_iff x.1 x.2).1 hx
  obtain ⟨q, cleaned, wf, frame, -⟩ :=
    simplifyClauses_spec _ p h root done found p.store.nodup_live
  have trail : q.trail = p.trail := by rw [frame]
  obtain ⟨r, collected, -, clauses, frame'⟩ := collectGarbage_spec wf (trail ▸ root)
  have trail' : r.trail = p.trail := by rw [frame', frame]
  have left : r.store.clauses = p.store.clauses.filterMap p.trail.clear? :=
    clauses.trans (clauses_of_slots (slots_simplifyClauses h root done cleaned))
  have unassigned : ∀ c ∈ r.store.clauses, ∀ l ∈ c.lits, r.trail.eval l = none := by
    intro c hc
    rw [left, List.mem_filterMap] at hc
    obtain ⟨d, -, hd⟩ := hc
    rw [trail']
    exact unassigned_of_clear? hd
  refine ⟨r, ?_, ⟨left, ?_, unassigned, by rw [frame', frame]⟩, ?_⟩
  · unfold simplify requireRoot
    rw [if_pos root, consistent]
    simp [propagate_of_done done, cleaned, collected, bind, Except.bind, pure, Except.pure]
  · intro c hc
    obtain ⟨i, hi⟩ := (p.store.mem_clauses_iff c).1 hc
    refine (h.satisfied_or_unassigned done hi).imp_right fun ⟨first, second⟩ => ?_
    simp [Clause.lits, first, second]
  · have root' : r.trail.level = 0 := trail' ▸ root
    have consistent' : r.consistent = true := by rw [frame', frame]; exact consistent
    have done' : r.head = r.trail.size := by rw [frame', frame]; exact done
    have again : simplifyClauses r.store.live r = .ok r :=
      simplifyClauses_of_unassigned _ fun x hx => unassigned x.2
        ((r.store.mem_clauses_iff x.2).2 ⟨x.1, (r.store.mem_live_iff x.1 x.2).1 hx⟩)
    have few := collectGarbage_of_few root' (few_holes_of_collectGarbage collected)
    unfold simplify requireRoot
    rw [if_pos root', consistent']
    simp [propagate_of_done done', again, few, bind, Except.bind, pure, Except.pure]

end Propagator

end IncrementalSat
