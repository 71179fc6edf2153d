import IncrementalSat.Proofs.Propagator.Addition
import IncrementalSat.Proofs.Propagator.Cleaning

/-!
# Simplifying clauses at the root level

Once everything is propagated at the root level, a clause without a true literal watches two
unassigned ones. Deleting its false literals leaves these two in front, and changes nothing in what
the propagator says.
-/
namespace IncrementalSat

namespace Propagator

variable {n : Nat} {p p' : Propagator n}

/-- The second clause is the first with some literals behind the watched ones deleted. -/
structure Stripped (c d : Clause n) : Prop where
  first : d.first = c.first
  second : d.second = c.second
  rest : d.rest.Sublist c.rest
  learnt : d.learnt = c.learnt

theorem Stripped.refl (c : Clause n) : Stripped c c := ⟨rfl, rfl, .refl _, rfl⟩

theorem Stripped.lits {c d : Clause n} (h : Stripped c d) : d.lits.Sublist c.lits := by
  rw [Clause.lits, Clause.lits, h.first, h.second]
  exact (h.rest.cons_cons _).cons_cons _

theorem Stripped.watches_iff {c d : Clause n} (h : Stripped c d) (l : Lit n) :
    d.Watches l ↔ c.Watches l := by
  simp only [Clause.Watches, h.first, h.second]

/-- What one clause may become. Other clauses, the trail and the watch lists stay. -/
structure Simplified (p : Propagator n) (i : Nat) (p' : Propagator n) : Prop where
  wellFormed : p'.WellFormed
  frame : p' = { p with store := p'.store }
  others : ∀ j, j ≠ i → ∀ d, p'.store.Has j d ↔ p.store.Has j d
  refines : p.Refines p'

/-- A clause that watches unassigned literals can lose literals behind them. -/
theorem WellFormed.strip (h : p.WellFormed) (root : p.trail.level = 0) {i : Nat} {c d : Clause n}
    (hc : p.store.Has i c) (stripped : Stripped c d) (first : p.trail.eval c.first = none)
    (second : p.trail.eval c.second = none) :
    ({ p with store := p.store.put i d } : Propagator n).WellFormed where
  trail := h.trail
  store := by
    refine (ClauseStore.Matches.put Stripped.refl hc stripped).wellFormed_of h.store ?_ ?_
    · exact fun _ _ r => r.learnt
    · exact fun _ _ r nodup => nodup.sublist (r.lits.map _)
  justified := fun j l hj => (h.justified j l hj).of_root root
  listed := by
    intro j e he l
    have found := (ClauseStore.has_put_iff hc d j e).1 he
    by_cases at_i : i = j
    · rw [if_pos at_i] at found
      subst at_i found
      simp only [stripped.watches_iff]
      exact h.listed i c hc l
    · rw [if_neg at_i] at found
      exact h.listed j e found l
  inRange := by
    intro l j hj
    change j < (p.store.put i d).size
    rw [ClauseStore.size_put]
    exact h.inRange l j hj
  head_le := h.head_le
  current := h.current
  served := by
    intro j e he w hw k hk at_k
    have found := (ClauseStore.has_put_iff hc d j e).1 he
    by_cases at_i : i = j
    · rw [if_pos at_i] at found
      subst found
      have value : p.trail.eval w = some false := (h.trail.eval_eq_false_iff w).2 ⟨k, at_k⟩
      rcases (stripped.watches_iff w).1 hw with rfl | rfl
      · rw [first] at value
        cases value
      · rw [second] at value
        cases value
    · rw [if_neg at_i] at found
      exact h.served j e found w hw k hk at_k

/-- Deleting literals that are false for good changes nothing in what is said. -/
theorem Refines.of_strip (h : p.WellFormed) (root : p.trail.level = 0) {i : Nat} {c d : Clause n}
    (hc : p.store.Has i c) (stripped : Stripped c d)
    (deleted : ∀ l ∈ c.lits, l ∈ d.lits ∨ p.trail.eval l = some false) :
    p.Refines { p with store := p.store.put i d } where
  sound := by
    intro σ valid
    refine ⟨?_, valid.facts⟩
    intro j e he
    have found := (ClauseStore.has_put_iff hc d j e).1 he
    split at found
    · subst found
      obtain ⟨l, hl, holds⟩ := valid.clauses i c hc
      rcases deleted l hl with stays | false
      · exact ⟨l, stays, holds⟩
      · exact absurd holds (not_holds_of_falsifies h root valid.facts ⟨l, rfl, false⟩)
    · exact valid.clauses j e found
  preserves := by
    refine ⟨fun j e he problem => ?_, fun _ hl => hl⟩
    by_cases at_i : i = j
    · subst at_i
      cases hc.unique he
      have new : (p.store.put i d).Has i d := (ClauseStore.has_put_iff hc ..).2 (by simp)
      exact .of_has new (stripped.learnt.trans problem) fun l hl => stripped.lits.mem hl
    · have stays : (p.store.put i d).Has j e := by
        rwa [ClauseStore.has_put_iff hc, if_neg at_i]
      exact .of_has stays problem fun _ hl => hl
  occurs := by
    rintro v (⟨j, e, he, l, hl, same⟩ | fixed)
    · have found := (ClauseStore.has_put_iff hc d j e).1 he
      split at found
      · subst found
        exact .inl ⟨i, c, hc, l, stripped.lits.mem hl, same⟩
      · exact .inl ⟨j, e, found, l, hl, same⟩
    · exact .inr fixed

/-- A clause with a literal that is true for good is not missed. -/
theorem Refines.of_satisfied (h : p.trail.WellFormed) (root : p.trail.level = 0) {i : Nat}
    {c : Clause n} (hc : p.store.Has i c) (satisfied : p.Satisfied c) (without : p.Without [i] p') :
    p.Refines p' where
  sound := fun σ valid => ⟨fun j d hd => valid.clauses j d ((without.has j d).1 hd).2,
    fun l hl => valid.facts l ((without.fixes_iff l).1 hl)⟩
  preserves := by
    have facts : ∀ l, p.Fixes l → p'.Fixes l := fun l => (without.fixes_iff l).2
    refine ⟨fun j d hd problem => ?_, facts⟩
    by_cases at_i : j = i
    · subst at_i
      cases hc.unique hd
      obtain ⟨l, hl, holds⟩ := satisfied
      exact .inl ⟨l, hl, facts l ((fixes_iff_of_root h root l).2 holds)⟩
    · exact .of_has ((without.has j d).2 ⟨by simpa using at_i, hd⟩) problem fun _ hl => hl
  occurs := by
    rintro v (⟨j, d, hd, l, hl, same⟩ | ⟨l, hl, same⟩)
    · exact .inl ⟨j, d, ((without.has j d).1 hd).2, l, hl, same⟩
    · exact .inr ⟨l, (without.fixes_iff l).1 hl, same⟩

/-- Once everything is propagated, a clause with a true literal is removed, and another one loses its
false literals. -/
theorem simplifyClause_spec (h : p.WellFormed) (root : p.trail.level = 0)
    (done : p.head = p.trail.size) {i : Nat} {c : Clause n} (hc : p.store.Has i c) :
    Yields (p.simplifyClause i c) (p.Simplified i) := by
  unfold simplifyClause
  split
  · next found =>
    have satisfied : p.Satisfied c := by simpa [Satisfied] using found
    refine (h.remove hc (absurd root)).mono ?_
    intro p' without
    refine ⟨without.wellFormed, without.frame, ?_, .of_satisfied h.trail root hc satisfied without⟩
    intro j other d
    rw [without.has]
    simp [other]
  · next missing =>
    have unsatisfied : ¬ p.Satisfied c := by simpa [Satisfied] using missing
    split
    · obtain ⟨first, second⟩ := (h.satisfied_or_unassigned done hc).resolve_left unsatisfied
      have kept : c.lits.filter (fun l => p.trail.eval l != some false) =
          c.first :: c.second :: c.rest.filter (fun l => p.trail.eval l != some false) := by
        simp [Clause.lits, first, second]
      rw [kept]
      set d : Clause n :=
        { c with rest := c.rest.filter (fun l => p.trail.eval l != some false) } with d_eq
      have stripped : Stripped c d := ⟨rfl, rfl, List.filter_sublist, rfl⟩
      have deleted : ∀ l ∈ c.lits, l ∈ d.lits ∨ p.trail.eval l = some false := by
        intro l hl
        by_cases false : p.trail.eval l = some .false
        · exact .inr false
        · left
          have mem : l ∈ c.lits.filter (fun l => p.trail.eval l != some .false) :=
            List.mem_filter.2 ⟨hl, by simpa using false⟩
          rwa [kept] at mem
      refine Yields.ok ⟨h.strip root hc stripped first second, rfl, ?_,
        .of_strip h root hc stripped deleted⟩
      intro j other e
      change (p.store.put i d).Has j e ↔ _
      rw [ClauseStore.has_put_iff hc, if_neg (Ne.symm other)]
    · exact Yields.ok ⟨h, rfl, fun _ _ _ => Iff.rfl, .refl p⟩

/-- Clauses are simplified one after the other, each as it was at first. -/
theorem simplifyClauses_spec (live : List (Nat × Clause n)) (p : Propagator n) (h : p.WellFormed)
    (root : p.trail.level = 0) (done : p.head = p.trail.size)
    (found : ∀ x ∈ live, p.store.Has x.1 x.2) (nodup : (live.map (·.1)).Nodup) :
    Yields (simplifyClauses live p) fun p' =>
      p'.WellFormed ∧ p' = { p with store := p'.store } ∧ p.Refines p' := by
  induction live generalizing p with
  | nil => exact Yields.ok ⟨h, rfl, .refl p⟩
  | cons x live ih =>
    obtain ⟨i, c⟩ := x
    obtain ⟨fresh, nodup⟩ := List.nodup_cons.1 nodup
    refine (simplifyClause_spec h root done (found (i, c) (by simp))).bind ?_
    intro p' ⟨wf', frame, others, refines⟩
    have found' : ∀ x ∈ live, p'.store.Has x.1 x.2 := by
      intro x hx
      refine (others x.1 ?_ x.2).2 (found x (by simp [hx]))
      intro same
      exact fresh (List.mem_map.2 ⟨x, hx, same⟩)
    have root' : p'.trail.level = 0 := by rw [frame]; exact root
    have done' : p'.head = p'.trail.size := by rw [frame]; exact done
    refine (ih p' wf' root' done' found' nodup).mono ?_
    intro p'' ⟨wf'', frame', refines'⟩
    exact ⟨wf'', by rw [frame', frame], refines.trans refines'⟩

/-- What simplifying leads to: the same things are said, or a contradiction was found. -/
structure Cleaned (p : Propagator n) (ok : Bool) (p' : Propagator n) : Prop where
  wellFormed : p'.WellFormed
  root : p'.trail.level = 0
  consistent : p'.consistent = ok
  before : ok = true → p.consistent = true
  done : ok = true → p'.head = p'.trail.size
  refines : p.Refines p'
  refuted : p.consistent = true → ok = false → ∀ σ, ¬ p.Valid σ

/-- Simplifying ends without a fault, in clauses that say the same or in a contradiction. -/
theorem simplify_spec (h : p.WellFormed) (root : p.trail.level = 0) :
    Yields p.simplify fun (ok, p') => p.Cleaned ok p' := by
  unfold simplify requireRoot
  rw [if_pos root]
  change Yields (if (!p.consistent) = true then _ else _) _
  cases consistent : p.consistent with
  | false =>
    refine Yields.ok ⟨h, root, consistent, by simp, by simp, .refl p, ?_⟩
    intro impossible
    rw [consistent] at impossible
    cases impossible
  | true =>
    refine (propagate_spec h).bind ?_
    rintro ⟨conflict, q⟩ ⟨step, wf, rest⟩
    have root' : q.trail.level = 0 := step.level.trans root
    have refines := Refines.of_extends step h.trail wf.trail
    cases conflict with
    | some i =>
      obtain ⟨c, hc, conflicting⟩ := rest
      refine Yields.ok ⟨wf.of_eq rfl rfl rfl rfl, root', rfl, by simp, by simp, ?_, ?_⟩
      · exact refines.trans (.of_fixes_iff rfl fun _ => Iff.rfl)
      · intro _ _ σ valid
        exact conflicting.not_valid wf.trail root' hc (refines.sound σ valid)
    | none =>
      have found : ∀ x ∈ q.store.live, q.store.Has x.1 x.2 :=
        fun x hx => (q.store.mem_live_iff x.1 x.2).1 hx
      refine (simplifyClauses_spec _ q wf root' rest found q.store.nodup_live).bind ?_
      rintro r ⟨wf', frame, refines'⟩
      have root'' : r.trail.level = 0 := by rw [frame]; exact root'
      refine (collectGarbage_spec wf' root'').bind ?_
      rintro s ⟨wf'', clauses, frame'⟩
      have trail : s.trail = r.trail := by rw [frame']
      refine Yields.pure ⟨wf'', by rw [trail]; exact root'', ?_, fun _ => consistent, fun _ => ?_, ?_,
        by simp⟩
      · rw [frame', frame]
        exact step.consistent.trans consistent
      · rw [frame', frame]
        exact rest
      · exact (refines.trans refines').trans (.of_clauses_eq clauses trail)

end Propagator

end IncrementalSat
