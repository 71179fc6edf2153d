import IncrementalSat.Proofs.Propagator.Propagation

/-!
# Propagation computes the unit closure

Watch lists show propagation only some of the clauses, but from a well-formed propagator it misses
none. Every literal it puts on the trail is in the unit closure of the old trail, whose clauses are
those of the store, learnt or not. If it reaches the end of the trail, every clause has a true
literal or two unassigned ones, so that nothing more follows and the trail is the whole closure.
Otherwise it has found a clause that the closure falsifies.
-/
namespace IncrementalSat

namespace Propagator

variable {n : Nat} {p p' : Propagator n} {conflict : Option Nat} {l : Lit n}

/-! ## The closure -/

/-- Unit propagation from the trail leads to the negations of all literals of a clause. -/
def Refutes (p : Propagator n) : Prop :=
  ∃ i c, p.store.Has i c ∧ ∀ l ∈ c.lits, p.store.Forces p.trail.lits.toList l.neg

/-- The part of the trail before the position has no consequences beyond the trail: a clause without
a true literal has two literals that this part does not falsify. -/
def ClosedBefore (p : Propagator n) (position : Nat) : Prop :=
  ∀ i c, p.store.Has i c → p.Satisfied c ∨ ∃ l ∈ c.lits, ∃ m ∈ c.lits, l.var ≠ m.var ∧
    ∀ k < position, p.trail.lits[k]? ≠ some l.neg ∧ p.trail.lits[k]? ≠ some m.neg

/-- What was propagated has no consequences left. -/
theorem WellFormed.closedBefore (h : p.WellFormed) : p.ClosedBefore p.head := by
  intro i c hc
  by_cases holds : p.Satisfied c
  · exact .inl holds
  · have kept : ∀ w, c.Watches w → ∀ k < p.head, p.trail.lits[k]? ≠ some w.neg := by
      intro w hw k hk at_k
      obtain ⟨m, hm, true, -⟩ := h.served i c hc w hw k hk at_k
      exact holds ⟨m, hm, true⟩
    have first : c.Watches c.first := .inl rfl
    have second : c.Watches c.second := .inr rfl
    exact .inr ⟨c.first, first.mem, c.second, second.mem, h.toLinked.watched_ne hc,
      fun k hk => ⟨kept _ first k hk, kept _ second k hk⟩⟩

theorem mem_trail_iff (h : p.trail.WellFormed) (l : Lit n) :
    l ∈ p.trail.lits.toList ↔ p.trail.eval l = some true := by
  rw [h.eval_eq_true_iff, Array.mem_toList_iff, Array.mem_iff_getElem?]

/-- Once everything is propagated the trail is closed: a clause all of whose literals but one are
false has a true literal, which can only be that one. -/
theorem WellFormed.eval_of_others (h : p.WellFormed) (done : p.head = p.trail.size) {i : Nat}
    {c : Clause n} (hc : p.store.Has i c)
    (others : ∀ m ∈ c.lits, m ≠ l → p.trail.eval m = some false) :
    p.trail.eval l = some true := by
  rcases h.satisfied_or_unassigned done hc with ⟨m, hm, holds⟩ | ⟨first, second⟩
  · by_cases same : m = l
    · exact same ▸ holds
    · rw [others m hm same] at holds
      cases holds
  · have only : ∀ w, c.Watches w → p.trail.eval w = none → w = l := by
      intro w hw unset
      by_contra other
      rw [others w hw.mem other] at unset
      cases unset
    have same := (only c.first (.inl rfl) first).trans (only c.second (.inr rfl) second).symm
    exact absurd (congrArg Literal.var same) (h.toLinked.watched_ne hc)

namespace Extends

variable (step : p.Extends p') (wf' : p'.WellFormed)

include step wf'

/-- The whole closure is on the trail once everything is propagated, by induction on how a literal
gets into the closure. -/
theorem eval_of_forces (done : p'.head = p'.trail.size)
    (forced : p.store.Forces p.trail.lits.toList l) : p'.trail.eval l = some true := by
  induction forced with
  | given mem => exact (mem_trail_iff wf'.trail _).1 (step.lits.subset mem)
  | @unit i c l has _ _ ih =>
    obtain ⟨d, hd, perm, -⟩ := step.store.has has
    refine wf'.eval_of_others done hd fun m hm other => ?_
    exact (Trail.eval_neg_eq_true_iff ..).1 (ih m (perm.mem_iff.1 hm) other)

theorem mem_iff_forces (done : p'.head = p'.trail.size) (l : Lit n) :
    l ∈ p'.trail.lits.toList ↔ p.store.Forces p.trail.lits.toList l :=
  ⟨step.forced l, fun forced => (mem_trail_iff wf'.trail l).2 (step.eval_of_forces wf' done forced)⟩

/-- With everything propagated no clause is falsified. -/
theorem not_refutes (done : p'.head = p'.trail.size) : ¬ p.Refutes := by
  rintro ⟨i, c, hc, forced⟩
  obtain ⟨d, hd, perm, -⟩ := step.store.has hc
  have false : ∀ m ∈ d.lits, p'.trail.eval m = some .false := fun m hm =>
    (Trail.eval_neg_eq_true_iff ..).1 (step.eval_of_forces wf' done (forced m (perm.mem_iff.1 hm)))
  have holds : p'.trail.eval d.first = some true :=
    wf'.eval_of_others done hd fun m hm _ => false m hm
  rw [false d.first (by simp [Clause.lits])] at holds
  cases holds

/-- A clause that is false at the end is falsified by the closure. -/
theorem refutes {i : Nat} {c : Clause n} (hc : p'.store.Has i c)
    (falsified : ∀ l ∈ c.lits, p'.trail.eval l = some false) : p.Refutes := by
  obtain ⟨d, hd, perm, -⟩ := step.store.has_of hc
  refine ⟨i, d, hd, fun l hl => step.forced l.neg ?_⟩
  rw [mem_trail_iff wf'.trail, Trail.eval_neg_eq_true_iff]
  exact falsified l (perm.mem_iff.2 hl)

end Extends

/-- What propagation makes of a propagator. -/
structure Closes (p : Propagator n) (conflict : Option Nat) (p' : Propagator n) : Prop where
  kept : p.trail.lits.toList <+: p'.trail.lits.toList
  starts : p'.trail.starts = p.trail.starts
  store : p.store.Matches Clause.Reordered p'.store
  silent : conflict = none ↔ ¬ p.Refutes
  closure : conflict = none →
    ∀ l, l ∈ p'.trail.lits.toList ↔ p.store.Forces p.trail.lits.toList l
  settled : conflict = none → ∀ i c, p'.store.Has i c → p'.Satisfied c ∨
    ∃ l ∈ c.lits, ∃ m ∈ c.lits, l.var ≠ m.var ∧ p'.trail.eval l = none ∧ p'.trail.eval m = none
  falsified : ∀ i ∈ conflict, ∃ c, p'.store.Has i c ∧ ∀ l ∈ c.lits, p'.trail.eval l = some false

theorem WellFormed.closes (h : p.WellFormed) :
    Yields p.propagate fun (conflict, p') => p.Closes conflict p' := by
  refine (propagate_spec h).mono ?_
  rintro ⟨conflict, p'⟩ ⟨step, wf', answer⟩
  cases conflict with
  | none =>
    refine ⟨step.lits, step.starts, step.store, iff_of_true rfl (step.not_refutes wf' answer),
      fun _ => step.mem_iff_forces wf' answer, fun _ i c hc => ?_, by simp⟩
    refine (wf'.satisfied_or_unassigned answer hc).imp_right ?_
    rintro ⟨first, second⟩
    exact ⟨c.first, by simp [Clause.lits], c.second, by simp [Clause.lits],
      wf'.toLinked.watched_ne hc, first, second⟩
  | some i =>
    obtain ⟨c, hc, conflicting⟩ := answer
    have refutes := step.refutes wf' hc conflicting.falsified
    refine ⟨step.lits, step.starts, step.store, iff_of_false (by simp) (not_not_intro refutes),
      by simp, by simp, fun j hj => ?_⟩
    cases hj
    exact ⟨c, hc, conflicting.falsified⟩

/-! ## The loop -/

/-- The loop of a propagation, without a bound, takes this many literals from the trail before it
stops. -/
inductive Sweeps : Propagator n → Nat → Option Nat → Propagator n → Prop
  | done {p : Propagator n} (past : p.trail.lits[p.head]? = none) : Sweeps p 0 none p
  | conflict {p p' : Propagator n} {l : Lit n} {i : Nat} (next : p.trail.lits[p.head]? = some l)
      (visited : visitAll l.neg #[] (p.watches.get l.neg).toList
        { p with propagations := p.propagations + 1 } = .ok (some i, p')) : Sweeps p 1 (some i) p'
  | next {k : Nat} {p p' p'' : Propagator n} {l : Lit n} {conflict : Option Nat}
      (next : p.trail.lits[p.head]? = some l)
      (visited : visitAll l.neg #[] (p.watches.get l.neg).toList
        { p with propagations := p.propagations + 1 } = .ok (none, p'))
      (rest : Sweeps { p' with head := p'.head + 1 } k conflict p'') : Sweeps p (k + 1) conflict p''

/-- A propagation that stays within its bound is the loop without a bound. -/
theorem sweeps_of_propagateUpTo {k : Nat}
    (result : propagateUpTo k p = .ok (conflict, p')) : ∃ j ≤ k, p.Sweeps j conflict p' := by
  induction k generalizing p with
  | zero =>
    rw [propagateUpTo] at result
    split at result
    · cases result
    · next past =>
      cases result
      exact ⟨0, Nat.le_refl 0, .done (Array.getElem?_eq_none_iff.2 (Nat.not_lt.1 past))⟩
  | succ k ih =>
    rw [propagateUpTo] at result
    split at result
    · next past =>
      cases result
      exact ⟨0, Nat.zero_le _, .done past⟩
    · next l next =>
      cases visited : visitAll l.neg #[] (p.watches.get l.neg).toList
        { p with propagations := p.propagations + 1 } with
      | error fault =>
        simp only [visited] at result
        cases result
      | ok out =>
        obtain ⟨found, q⟩ := out
        simp only [visited] at result
        cases found with
        | some i =>
          cases result
          exact ⟨1, Nat.le_add_left 1 k, .conflict next visited⟩
        | none =>
          obtain ⟨j, bound, rest⟩ := ih result
          exact ⟨j + 1, Nat.succ_le_succ bound, .next next visited rest⟩

end Propagator

end IncrementalSat
