import IncrementalSat.Proofs.Propagator.Cleaning

/-!
# Reasons

The trail is ordered by level, and above level zero each literal was decided, as the first one of its
level, or implied by a clause whose other literals had become false before. The clause is named by its
index only. While it is a reason it is not removed, and its first literal stays in place: a literal
that is visited is false, and the first literal of a reason is true.
-/
namespace IncrementalSat

namespace Trail

variable {n : Nat} {t : Trail n} {s : ClauseStore n} {j : Nat} {l m : Lit n}

/-- The trail is in order, and the reasons of its literals are what they should be. -/
structure Grounded (t : Trail n) (s : ClauseStore n) : Prop where
  distinct : (t.lits.toList.map (·.var)).Nodup
  valued : ∀ v b, t.valueOf v = some b ↔ ∃ i : Nat, t.lits[i]? = some ⟨v, b⟩
  ascending : ∀ (i j : Nat) l m, i ≤ j → t.lits[i]? = some l → t.lits[j]? = some m →
    t.depth l ≤ t.depth m
  level : ∀ (i : Nat) l, t.lits[i]? = some l →
    t.levelOf l.var = some (t.starts.toList.countP (· ≤ i))
  root : ∀ (i : Nat) l, t.lits[i]? = some l → t.depth l = 0 → t.reasonOf l.var = some .root
  reason : ∀ (i : Nat) l, t.lits[i]? = some l → 0 < t.depth l →
    (t.reasonOf l.var = some .decision ∧
      ∀ k < i, ∀ m, t.lits[k]? = some m → t.depth m < t.depth l) ∨
    ∃ j c, t.reasonOf l.var = some (.clause j) ∧ s.Has j c ∧ c.first = l ∧
      ∀ m ∈ c.lits, m ≠ l → t.eval m = some false ∧ ∃ k < i, t.lits[k]? = some m.neg

/-- The clause with this index is the reason of a literal of a level above zero. -/
structure IsReason (t : Trail n) (j : Nat) (l : Lit n) : Prop where
  holds : t.eval l = some true
  above : 0 < t.depth l
  reason : t.reasonOf l.var = some (.clause j)

/-- A reason is in the store, and the literal it is a reason of comes first in it. -/
theorem Grounded.has_of_isReason (h : t.Grounded s) (reason : t.IsReason j l) :
    ∃ c, s.Has j c ∧ c.first = l := by
  have value : t.valueOf l.var = some l.positive := by
    have holds := reason.holds
    simpa [eval] using holds
  obtain ⟨i, at_i⟩ := (h.valued l.var l.positive).1 value
  have known := reason.reason
  rcases h.reason i l at_i reason.above with ⟨decided, -⟩ | ⟨j', c, implied, hc, first, -⟩
  · rw [decided] at known
    cases known
  · rw [implied] at known
    cases known
    exact ⟨c, hc, first⟩

/-- A new literal changes no reason. -/
theorem IsReason.assign (h : t.IsReason j l) (fresh : t.eval m = none) (r : Reason) :
    (t.assign m r).IsReason j l where
  holds := eval_assign_of_eval fresh h.holds
  above := by
    rw [depth_assign_of_eval fresh h.holds]
    exact h.above
  reason := by
    rw [reasonOf_assign, if_neg (var_ne_of_eval fresh h.holds)]
    exact h.reason

end Trail

namespace Propagator

variable {n : Nat} {p q : Propagator n} {w : Lit n} {i : Nat}

theorem Linked.grounded (h : p.Linked) : p.trail.Grounded p.store where
  distinct := h.trail.nodup
  valued := by
    intro v b
    rw [← h.trail.eval_eq_true_iff]
    simp [Trail.eval]
  ascending := by
    intro i j l m le at_i at_j
    rw [h.trail.depth_of_position at_i, h.trail.depth_of_position at_j]
    exact p.trail.levelAt_mono le
  level := by
    intro i l at_i
    rw [Trail.levelOf_of_eval (h.trail.eval_of_position at_i), h.trail.depth_of_position at_i]
    rfl
  root := by
    intro i l at_i low
    rw [h.trail.depth_of_position at_i] at low
    cases h.justified i l at_i with
    | fixed _ reason => exact reason
    | decided above => omega
    | implied above => omega
  reason := by
    intro i l at_i above
    rw [h.trail.depth_of_position at_i] at above
    cases h.justified i l at_i with
    | fixed low => omega
    | decided _ reason start =>
      refine .inl ⟨reason, ?_⟩
      intro k before m at_k
      rw [h.trail.depth_of_position at_k, h.trail.depth_of_position at_i]
      exact p.trail.levelAt_lt_of_start before start
    | implied _ j c reason has first others =>
      refine .inr ⟨j, c, reason, has, first, ?_⟩
      intro m hm different
      obtain ⟨k, before, at_k⟩ := others m hm different
      exact ⟨(h.trail.eval_eq_false_iff m).2 ⟨k, at_k⟩, k, before, at_k⟩

/-! ## Dropping learnt clauses -/

/-- Learnt clauses are dropped only if they are no reasons. -/
theorem WellFormed.reduceLearnts_keeps (h : p.WellFormed) : Yields p.reduceLearnts fun q =>
    q.trail.Grounded q.store ∧
      ∀ j l c, p.trail.IsReason j l → p.store.Has j c → q.store.Has j c := by
  refine (without_reduceLearnts h).mono ?_
  rintro q ⟨is, without, -⟩
  have grounded := without.wellFormed.toLinked.grounded
  refine ⟨grounded, fun j l c reason hc => ?_⟩
  have trail : q.trail = p.trail := by rw [without.frame]
  rw [← trail] at reason
  obtain ⟨d, hd, -⟩ := grounded.has_of_isReason reason
  rw [hc.unique ((without.has j d).1 hd).2]
  exact hd

/-! ## One visit -/

/-- A visit leaves the trail as it is or makes one more literal true. -/
theorem trail_of_visit {outcome : Visit} (visited : p.visit w i = .ok (outcome, q)) :
    q.trail = p.trail ∨ ∃ l r, p.trail.eval l = none ∧ q.trail = p.trail.assign l r := by
  unfold visit at visited
  split at visited
  · cases visited
  · cases visited
    exact .inl rfl
  · next stored _ =>
    dsimp only at visited
    split at visited
    · cases visited
    · split at visited
      · cases visited
        exact .inl rfl
      · split at visited
        · cases visited
          exact .inl rfl
        · split at visited
          · cases visited
          · split at visited
            · cases visited
            · cases visited
              exact .inl rfl
        · split at visited
          · next fresh =>
            cases visited
            exact .inr ⟨_, _, Option.isNone_iff_eq_none.1 fresh, rfl⟩
          · cases visited
            exact .inl rfl

/-- Whatever a visit comes to, some watch list makes the propagator well-formed. -/
theorem Visited.exists_listing {kept : Array Nat} {pending : List Nat} {outcome : Visit}
    (visited : Visited w kept i pending q outcome) : ∃ entries, (q.listing w entries).WellFormed := by
  cases outcome with
  | keep => exact ⟨_, visited.1⟩
  | drop => exact ⟨_, visited⟩
  | conflict => exact ⟨_, visited.1⟩

/-- A visit keeps every reason, with the literal that it implied in front. -/
theorem visit_keeps {kept : Array Nat} {pending : List Nat}
    (h : (p.listing w (kept ++ (i :: pending).toArray)).WellFormed)
    (next : p.trail.lits[p.head]? = some w.neg) : Yields (p.visit w i) fun (_, q) =>
      q.trail.Grounded q.store ∧ ∀ j l c, p.trail.IsReason j l → p.store.Has j c →
        q.trail.IsReason j l ∧ ∃ d, q.store.Has j d ∧ d.first = c.first ∧ d.lits.Perm c.lits := by
  obtain ⟨⟨outcome, q⟩, result, step, -, visited⟩ := visit_spec h next
  obtain ⟨entries, wf⟩ := visited.exists_listing
  have grounded : q.trail.Grounded q.store := wf.toLinked.grounded
  have before : p.trail.Grounded p.store := h.toLinked.grounded
  refine ⟨(outcome, q), result, grounded, fun j l c reason hc => ?_⟩
  have still : q.trail.IsReason j l := by
    rcases trail_of_visit result with same | ⟨m, r, fresh, assigned⟩
    · rw [same]
      exact reason
    · rw [assigned]
      exact reason.assign fresh r
  obtain ⟨c', hc', first⟩ := before.has_of_isReason reason
  obtain ⟨d', hd', first'⟩ := grounded.has_of_isReason still
  obtain ⟨d, hd, same⟩ := step.store.has hc
  rw [hc'.unique hc] at first
  rw [hd'.unique hd] at first'
  exact ⟨still, d, hd, first'.trans first.symm, same.1⟩

/-! ## All visits of a propagation -/

/-- Going through the pending entries of a watch list, after some that were kept, the clause `i` comes
to be visited in `q`. -/
inductive Looks (w : Lit n) : Array Nat → List Nat → Propagator n → Nat → Propagator n → Prop
  | first {kept : Array Nat} {i : Nat} {pending : List Nat} {p : Propagator n} :
      Looks w kept (i :: pending) p i p
  | keep {kept : Array Nat} {i j : Nat} {pending : List Nat} {p p' q : Propagator n}
      (visited : p.visit w i = .ok (.keep, p')) (rest : Looks w (kept.push i) pending p' j q) :
      Looks w kept (i :: pending) p j q
  | drop {kept : Array Nat} {i j : Nat} {pending : List Nat} {p p' q : Propagator n}
      (visited : p.visit w i = .ok (.drop, p')) (rest : Looks w kept (lastToFront pending) p' j q) :
      Looks w kept (i :: pending) p j q

/-- While literals are taken from the trail one after the other, the clause `i` comes to be visited in
`q`, because it watches `w`. -/
inductive Visits : Propagator n → Lit n → Nat → Propagator n → Prop
  | here {p q : Propagator n} {l : Lit n} {i : Nat} (next : p.trail.lits[p.head]? = some l)
      (looks : Looks l.neg #[] (p.watches.get l.neg).toList
        { p with propagations := p.propagations + 1 } i q) : Visits p l.neg i q
  | later {p p' q : Propagator n} {l w : Lit n} {i : Nat} (next : p.trail.lits[p.head]? = some l)
      (visited : visitAll l.neg #[] (p.watches.get l.neg).toList
        { p with propagations := p.propagations + 1 } = .ok (none, p'))
      (rest : Visits { p' with head := p'.head + 1 } w i q) : Visits p w i q

/-- What holds whenever a clause is visited. -/
structure Visiting (w : Lit n) (i : Nat) (q : Propagator n) : Prop where
  listing : ∃ kept pending, (q.listing w (kept ++ (i :: pending).toArray)).WellFormed
  next : q.trail.lits[q.head]? = some w.neg

theorem Looks.visiting {kept : Array Nat} {pending : List Nat} (looks : Looks w kept pending p i q)
    (h : (p.listing w (kept ++ pending.toArray)).WellFormed)
    (next : p.trail.lits[p.head]? = some w.neg) : Visiting w i q := by
  induction looks with
  | first => exact ⟨⟨_, _, h⟩, next⟩
  | keep visited _ ih =>
    obtain ⟨step, head, listing, -⟩ := (visit_spec h next).of_eq visited
    apply ih listing
    rw [head]
    exact step.position next
  | drop visited _ ih =>
    obtain ⟨step, head, listing⟩ := (visit_spec h next).of_eq visited
    apply ih listing
    rw [head]
    exact step.position next

theorem Visits.visiting (visits : p.Visits w i q) (h : p.WellFormed) : Visiting w i q := by
  induction visits with
  | @here p _ l _ next looks =>
    have next' : p.trail.lits[p.head]? = some l.neg.neg := by rwa [Literal.neg_neg]
    exact looks.visiting (h.visiting l.neg) next'
  | later next visited _ ih =>
    obtain ⟨-, -, advanced⟩ := (visitHead_spec h next).of_eq visited
    exact ih advanced

theorem Visiting.grounded (visiting : Visiting w i q) : q.trail.Grounded q.store := by
  obtain ⟨kept, pending, h⟩ := visiting.listing
  exact h.toLinked.grounded

theorem Visiting.keeps (visiting : Visiting w i q) : Yields (q.visit w i) fun (_, r) =>
    r.trail.Grounded r.store ∧ ∀ j l c, q.trail.IsReason j l → q.store.Has j c →
      r.trail.IsReason j l ∧ ∃ d, r.store.Has j d ∧ d.first = c.first ∧ d.lits.Perm c.lits := by
  obtain ⟨kept, pending, h⟩ := visiting.listing
  exact visit_keeps h visiting.next

theorem Visiting.store (visiting : Visiting w i q) : q.store.WellFormed := by
  obtain ⟨kept, pending, h⟩ := visiting.listing
  exact h.store

end Propagator

end IncrementalSat
