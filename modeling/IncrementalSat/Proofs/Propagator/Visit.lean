import IncrementalSat.Proofs.Propagator.Closure
import IncrementalSat.Proofs.Propagator.Storing
import IncrementalSat.Propagator.Propagation

/-!
# Visiting a clause

During the visits to the clauses that watch a false literal, the propagator is well-formed once the
watch list of the literal is replaced by the entries kept and those still pending.
-/
namespace IncrementalSat

namespace Propagator

variable {n : Nat} {p : Propagator n}

/-- The propagator with another watch list for a literal. -/
def listing (p : Propagator n) (l : Lit n) (entries : Array Nat) : Propagator n :=
  { p with watches := p.watches.set l entries }

/-- Every literal of the clause is false, and those it watches are of the current level. -/
structure Conflicting (p : Propagator n) (c : Clause n) : Prop where
  falsified : ∀ l ∈ c.lits, p.trail.eval l = some false
  watched : ∀ l, c.Watches l → p.trail.depth l = p.trail.level

/-- Some literal of the clause is true. -/
def Satisfied (p : Propagator n) (c : Clause n) : Prop := ∃ l ∈ c.lits, p.trail.eval l = some true

/-! ## Rearranging -/

/-- Only the number of times a live clause is listed matters. -/
theorem WellFormed.of_watches (h : p.WellFormed) {w : LitMap n (Array Nat)}
    (live : ∀ i c, p.store.Has i c → ∀ l, (w.get l).count i = (p.watches.get l).count i)
    (sub : ∀ l, ∀ i ∈ w.get l, i < p.store.size) :
    ({ p with watches := w } : Propagator n).WellFormed where
  trail := h.trail
  store := h.store
  justified := h.justified
  listed := by
    intro i c hc l
    rw [← h.listed i c hc l]
    exact live i c hc l
  inRange := sub
  head_le := h.head_le
  current := h.current
  served := h.served

/-- A clause can be reordered, as long as it is no reason, or stays the reason of the same literal,
and a literal it newly watches is unassigned. -/
theorem WellFormed.rearrange (h : p.WellFormed) {i : Nat} {c d : Clause n} (hc : p.store.Has i c)
    (same : Clause.Reordered c d) {w : LitMap n (Array Nat)}
    (listed : ∀ l, (w.get l).count i = if d.Watches l then 1 else 0)
    (others : ∀ j, j ≠ i → ∀ l, (w.get l).count j = (p.watches.get l).count j)
    (reason : p.trail.eval c.first = some true → d.first = c.first)
    (watches : ∀ l, d.Watches l → c.Watches l ∨ p.trail.eval l = none) :
    ({ p with store := p.store.put i d, watches := w } : Propagator n).WellFormed where
  trail := h.trail
  store := (ClauseStore.Matches.put Clause.Reordered.refl hc same).wellFormed h.store
  justified := by
    intro k l hk
    refine (h.justified k l hk).transfer rfl rfl id (fun _ _ _ hm => hm) ?_
    intro j e _ _ he first
    by_cases at_i : i = j
    · subst at_i
      cases hc.unique he
      refine ⟨d, (ClauseStore.has_put_iff hc ..).2 (by simp), ?_, fun m => same.1.mem_iff.1⟩
      rw [← first]
      exact reason (first ▸ h.trail.eval_of_position hk)
    · refine ⟨e, (ClauseStore.has_put_iff hc ..).2 ?_, first, fun _ hm => hm⟩
      rwa [if_neg at_i]
  listed := by
    intro j e he l
    have found := (ClauseStore.has_put_iff hc d j e).1 he
    by_cases at_i : i = j
    · rw [if_pos at_i] at found
      subst at_i found
      exact listed l
    · rw [if_neg at_i] at found
      rw [← h.listed j e found l]
      exact others j (Ne.symm at_i) l
  inRange := by
    intro l j hj
    change j < (p.store.put i d).size
    rw [ClauseStore.size_put]
    by_cases at_i : j = i
    · exact at_i ▸ hc.lt_size
    · have count : 0 < (w.get l).count j := Array.count_pos_iff.2 hj
      rw [others j at_i, Array.count_pos_iff] at count
      exact h.inRange l j count
  head_le := h.head_le
  current := h.current
  served := by
    intro j e he v hv k hk at_k
    have found := (ClauseStore.has_put_iff hc d j e).1 he
    by_cases at_i : i = j
    · rw [if_pos at_i] at found
      subst found
      rcases watches v hv with old | fresh
      · obtain ⟨m, hm, holds, low⟩ := h.served i c hc v old k hk at_k
        exact ⟨m, same.1.mem_iff.2 hm, holds, low⟩
      · have value := (h.trail.eval_eq_false_iff v).2 ⟨k, at_k⟩
        rw [fresh] at value
        cases value
    · rw [if_neg at_i] at found
      exact h.served j e found v hv k hk at_k

/-! ## Turning -/

theorem turn_watches_iff (c : Clause n) (w l : Lit n) :
    (c.turn w).Watches l ↔ c.Watches l := by
  unfold Clause.turn
  split
  · rfl
  · simp [Clause.Watches, or_comm]

theorem turn_second {c : Clause n} {w : Lit n} (hw : c.Watches w) : (c.turn w).second = w := by
  unfold Clause.turn
  split
  · assumption
  · next other =>
    rcases hw with rfl | rfl
    · rfl
    · exact absurd rfl other

theorem turn_reordered (c : Clause n) (w : Lit n) : Clause.Reordered c (c.turn w) :=
  ⟨c.turn_lits_perm w, c.turn_learnt w⟩

theorem WellFormed.turn (h : p.WellFormed) {i : Nat} {c : Clause n} (hc : p.store.Has i c)
    {w : Lit n} (hw : c.Watches w) (false : p.trail.eval w = some false) :
    ({ p with store := p.store.put i (c.turn w) } : Propagator n).WellFormed := by
  refine h.rearrange hc (turn_reordered c w) (w := p.watches) ?_ (fun _ _ _ => rfl) ?_ ?_
  · intro l
    rw [h.listed i c hc]
    simp only [turn_watches_iff]
  · intro holds
    unfold Clause.turn
    split
    · rfl
    · next other =>
      rcases hw with rfl | rfl
      · rw [false] at holds
        cases holds
      · exact absurd rfl other
  · exact fun l hl => .inl ((turn_watches_iff c w l).1 hl)

/-! ## Watch lists under change -/

theorem watches_listing (p : Propagator n) (l k : Lit n) (entries : Array Nat) :
    (p.listing l entries).watches.get k = if l = k then entries else p.watches.get k :=
  LitMap.get_set ..

/-- The order of a watch list is of no importance. -/
theorem WellFormed.of_perm {l : Lit n} {entries entries' : Array Nat}
    (h : (p.listing l entries).WellFormed) (perm : entries'.toList.Perm entries.toList) :
    (p.listing l entries').WellFormed := by
  have same : ∀ k i, ((p.listing l entries').watches.get k).count i =
      ((p.listing l entries).watches.get k).count i := by
    intro k i
    rw [watches_listing, watches_listing]
    split
    · rw [← Array.count_toList, ← Array.count_toList]
      exact perm.count_eq i
    · rfl
  refine h.of_watches (w := (p.listing l entries').watches) (fun i _ _ k => same k i) ?_
  intro k i hi
  rw [← Array.count_pos_iff, same, Array.count_pos_iff] at hi
  exact h.inRange k i hi

/-- The entry of a hole can be dropped. -/
theorem WellFormed.drop_hole {l : Lit n} {i : Nat} {rest : List Nat}
    (h : (p.listing l (i :: rest).toArray).WellFormed) (hole : ∀ c, ¬ p.store.Has i c) :
    (p.listing l rest.toArray).WellFormed := by
  refine h.of_watches (w := (p.listing l rest.toArray).watches) ?_ ?_
  · intro j c hc k
    have other : i ≠ j := by
      rintro rfl
      exact hole c hc
    rw [watches_listing, watches_listing]
    split
    · simp [other]
    · rfl
  · intro k j hj
    refine h.inRange k j ?_
    rw [watches_listing] at hj ⊢
    split at hj
    · next same =>
      rw [if_pos same]
      simp only [List.mem_toArray] at hj ⊢
      exact List.mem_cons_of_mem _ hj
    · next same => rwa [if_neg same]

/-- A literal behind the watched ones is neither of them. -/
theorem Linked.not_watches_of_mem_rest (h : p.Linked) {i : Nat} {c : Clause n}
    (hc : p.store.Has i c) {l : Lit n} (hl : l ∈ c.rest) : ¬ c.Watches l := by
  have nodup := h.store.distinct i c hc
  simp only [Clause.lits, List.map_cons, List.nodup_cons, List.mem_cons, not_or] at nodup
  rintro (rfl | rfl)
  · exact nodup.1.2 (List.mem_map_of_mem hl)
  · exact nodup.2.1 (List.mem_map_of_mem hl)

/-- Exchanging the second literal with a later one. -/
theorem moved_reordered {c : Clause n} {l : Lit n} {before after : List (Lit n)}
    (parts : c.rest = before ++ l :: after) :
    Clause.Reordered c { c with second := l, rest := before ++ c.second :: after } := by
  refine ⟨?_, rfl⟩
  rw [Clause.lits, Clause.lits, parts]
  refine .cons _ ?_
  have toFront : ∀ a b : Lit n, (b :: (before ++ a :: after)).Perm (b :: a :: (before ++ after)) :=
    fun a b => List.perm_middle.cons b
  exact (toFront c.second l).trans ((List.Perm.swap _ _ _).trans (toFront l c.second).symm)

/-- A clause leaves the list of its second literal for that of an unassigned one. -/
theorem WellFormed.move {i : Nat} {c : Clause n} {rest : List Nat} {l : Lit n}
    {before after : List (Lit n)} (h : (p.listing c.second (i :: rest).toArray).WellFormed)
    (hc : p.store.Has i c) (unassigned : p.trail.eval l = none)
    (false : p.trail.eval c.second = some false) (untrue : p.trail.eval c.first ≠ some true)
    (parts : c.rest = before ++ l :: after) :
    (({ p with
        store := p.store.put i { c with second := l, rest := before ++ c.second :: after }
        watches := p.watches.push l i } : Propagator n).listing c.second rest.toArray).WellFormed := by
  have other : c.second ≠ l := by
    intro same
    rw [same, unassigned] at false
    cases false
  have unwatched : ¬ c.Watches l := h.toLinked.not_watches_of_mem_rest hc (by rw [parts]; simp)
  have count : ∀ k, ((p.listing c.second (i :: rest).toArray).watches.get k).count i =
      if c.Watches k then 1 else 0 := h.listed i c hc
  have left : rest.count i = 0 := by
    have := count c.second
    rw [watches_listing, if_pos rfl, if_pos (.inr rfl), List.count_toArray,
      List.count_cons_self] at this
    omega
  refine h.rearrange hc (d := { c with second := l, rest := before ++ c.second :: after })
    (w := (p.watches.push l i).set c.second rest.toArray) (moved_reordered parts) ?_ ?_ ?_ ?_
  · intro k
    have now := count k
    rw [watches_listing] at now
    rw [LitMap.get_set]
    by_cases second : c.second = k
    · subst second
      rw [if_pos rfl, List.count_toArray, left, if_neg]
      rintro (eq | eq)
      · exact h.toLinked.watched_ne hc (congrArg Literal.var eq).symm
      · exact other eq
    · rw [if_neg second] at now ⊢
      rw [LitMap.get_push]
      by_cases new : l = k
      · subst new
        rw [if_neg unwatched] at now
        rw [if_pos rfl, Array.count_push, now, if_pos (beq_self_eq_true i), if_pos (.inr rfl)]
      · rw [if_neg new, now]
        simp [Clause.Watches, Ne.symm new, Ne.symm second]
  · intro j different k
    rw [LitMap.get_set, watches_listing]
    split
    · simp [Ne.symm different]
    · rw [LitMap.get_push]
      split
      · rw [Array.count_push, if_neg (by simpa using Ne.symm different), Nat.add_zero]
      · rfl
  · exact fun holds => absurd holds untrue
  · rintro k (rfl | rfl)
    · exact .inl (.inl rfl)
    · exact .inr unassigned

end Propagator

end IncrementalSat
