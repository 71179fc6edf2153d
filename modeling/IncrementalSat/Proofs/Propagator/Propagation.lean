import IncrementalSat.Proofs.Propagator.Visit

/-!
# Propagation

A visit keeps the propagator well-formed up to the watch list under change. So do all visits of a
list, after which the literal of the head is propagated or a clause is false at the current level.
-/
namespace IncrementalSat

namespace Propagator

variable {n : Nat} {p : Propagator n}

/-! ## One clause -/

/-- What a visit to the clause `i` leads to, which stands between kept and pending entries. -/
def Visited (w : Lit n) (kept : Array Nat) (i : Nat) (pending : List Nat) (p : Propagator n) :
    Visit → Prop
  | .keep => (p.listing w (kept.push i ++ pending.toArray)).WellFormed ∧
    ∀ c, p.store.Has i c → p.Satisfied c
  | .drop => (p.listing w (kept ++ (lastToFront pending).toArray)).WellFormed
  | .conflict => (p.listing w (kept ++ (i :: pending).toArray)).WellFormed ∧
    ∃ c, p.store.Has i c ∧ p.Conflicting c

/-- A clause whose second watched literal is the false one, and whose others are false except
possibly the first. -/
theorem Linked.justified_first (h : p.Linked) {i : Nat} {c : Clause n} (hc : p.store.Has i c)
    (others : ∀ m ∈ c.second :: c.rest, p.trail.eval m = some false) :
    (p.trail.assign c.first (.clause i)).Justified p.store p.trail.size c.first := by
  have level : p.trail.levelAt p.trail.size = p.trail.level :=
    h.trail.levelAt_of_size_le (Nat.le_refl _)
  by_cases root : p.trail.level = 0
  · refine .fixed (level.trans root) ?_
    rw [Trail.reasonOf_assign, if_pos rfl, if_pos root]
  · refine .implied ?_ i c ?_ hc rfl ?_
    · change 0 < p.trail.levelAt p.trail.size
      omega
    · rw [Trail.reasonOf_assign, if_pos rfl, if_neg root]
    · intro m hm different
      have hm : m ∈ c.second :: c.rest := (List.mem_cons.1 hm).resolve_left different
      obtain ⟨k, hk⟩ := (h.trail.eval_eq_false_iff m).1 (others m hm)
      exact ⟨k, (Array.getElem?_eq_some_iff.1 hk).1, (Trail.position_assign ..).2 (.inl hk)⟩

/-- Assigning the literal that a clause forces is a step of unit propagation. -/
theorem Extends.assign_forced (h : p.trail.WellFormed) {i : Nat} {c : Clause n} (hc : p.store.Has i c)
    (r : Reason) (others : ∀ m ∈ c.second :: c.rest, p.trail.eval m = some false) :
    p.Extends (p.assign c.first r) where
  store := .refl Clause.Reordered.refl _
  starts := rfl
  lits := by
    change p.trail.lits.toList <+: (p.trail.assign c.first r).lits.toList
    rw [Trail.lits_assign, Array.toList_push]
    exact List.prefix_append ..
  forced := by
    intro l hl
    change l ∈ (p.trail.assign c.first r).lits.toList at hl
    rw [Trail.lits_assign, Array.toList_push, List.mem_append, List.mem_singleton] at hl
    rcases hl with old | rfl
    · exact .given old
    · refine .unit hc (by simp [Clause.lits]) ?_
      intro m hm different
      have hm : m ∈ c.second :: c.rest := (List.mem_cons.1 hm).resolve_left different
      obtain ⟨k, hk⟩ := (h.eval_eq_false_iff m).1 (others m hm)
      exact .given (by simpa using Array.mem_of_getElem? hk)
  consistent := rfl

/-- A false clause is false at the current level: a watched literal that was false before would
be excused by a true one. -/
theorem WellFormed.conflicting (h : p.WellFormed) {i : Nat} {c : Clause n} (hc : p.store.Has i c)
    (falsified : ∀ l ∈ c.lits, p.trail.eval l = some false) : p.Conflicting c where
  falsified := falsified
  watched := by
    intro l hl
    obtain ⟨k, hk⟩ := (h.trail.eval_eq_false_iff l).1 (falsified l hl.mem)
    by_cases done : k < p.head
    · obtain ⟨m, hm, holds, -⟩ := h.served i c hc l hl k done hk
      rw [falsified m hm] at holds
      cases holds
    · have waiting := h.toLinked.depth_of_head_le (Nat.not_lt.1 done) hk
      exact waiting

/-! ### What a visit comes to -/

section

variable {w : Lit n} {kept : Array Nat} {i : Nat} {pending : List Nat} {c : Clause n}

/-- The entry of a removed clause is dropped. -/
theorem visited_of_hole (h : (p.listing w (kept ++ (i :: pending).toArray)).WellFormed)
    (hole : p.store.slots[i]? = some none) : Visited w kept i pending p .drop := by
  have absent : ∀ c, ¬ p.store.Has i c := by
    intro c hc
    rw [ClauseStore.Has, hole] at hc
    cases hc
  have front : (p.listing w (i :: (kept.toList ++ pending)).toArray).WellFormed :=
    h.of_perm (by simp [List.perm_middle.symm])
  refine (front.drop_hole absent).of_perm ?_
  simpa using (lastToFront_perm pending).append_left kept.toList

/-- A clause with a true literal keeps its watches. -/
theorem visited_of_satisfied (h : (p.listing w (kept ++ (i :: pending).toArray)).WellFormed)
    (hc : p.store.Has i c) (satisfied : p.Satisfied c) : Visited w kept i pending p .keep := by
  refine ⟨h.of_perm (by simp), fun d hd => ?_⟩
  exact hc.unique hd ▸ satisfied

/-- A literal behind the watched ones is neither of them, and its list does not name the clause. -/
theorem unlisted_of_mem_rest {entries : Array Nat} (h : (p.listing c.second entries).WellFormed)
    (hc : p.store.Has i c) {l : Lit n} (hl : l ∈ c.rest) :
    c.first ≠ l ∧ (p.watches.get l).contains i = false := by
  have unwatched : ¬ c.Watches l := h.toLinked.not_watches_of_mem_rest hc hl
  have second : c.second ≠ l := fun same => unwatched (.inr same.symm)
  refine ⟨fun same => unwatched (.inl same.symm), ?_⟩
  have count := h.listed i c hc l
  rw [watches_listing, if_neg second, if_neg unwatched, Array.count_eq_zero] at count
  simpa using count

/-- A clause with an unassigned literal behind the watched ones comes to watch it instead of the false
one, and its entry is dropped. -/
theorem visited_of_unassigned {l : Lit n} {before after : List (Lit n)}
    (h : (p.listing c.second (kept ++ (i :: pending).toArray)).WellFormed) (hc : p.store.Has i c)
    (false : p.trail.eval c.second = some false) (untrue : p.trail.eval c.first ≠ some true)
    (parts : c.rest = before ++ l :: after) (unassigned : p.trail.eval l = none) :
    Visited c.second kept i pending { p with
      store := p.store.put i { c with second := l, rest := before ++ c.second :: after }
      watches := p.watches.push l i } .drop := by
  have front : (p.listing c.second (i :: (kept.toList ++ pending)).toArray).WellFormed :=
    h.of_perm (by simp [List.perm_middle.symm])
  refine (front.move hc unassigned false untrue parts).of_perm ?_
  simpa using (lastToFront_perm pending).append_left kept.toList

/-- A clause whose other literals are false makes an unassigned first literal true. -/
theorem visited_of_forced (h : (p.listing c.second (kept ++ (i :: pending).toArray)).WellFormed)
    (hc : p.store.Has i c) (others : ∀ m ∈ c.second :: c.rest, p.trail.eval m = some false)
    (fresh : p.trail.eval c.first = none) :
    Visited c.second kept i pending (p.assign c.first (.clause i)) .keep := by
  have why := h.toLinked.justified_first hc others
  have assigned : ((p.assign c.first (.clause i)).listing c.second
      (kept ++ (i :: pending).toArray)).WellFormed := h.assign fresh why
  exact visited_of_satisfied assigned hc
    ⟨c.first, by simp [Clause.lits], Trail.eval_assign_self ..⟩

/-- A clause whose literals are all false is a conflict. -/
theorem visited_of_falsified (h : (p.listing w (kept ++ (i :: pending).toArray)).WellFormed)
    (hc : p.store.Has i c) (falsified : ∀ m ∈ c.lits, p.trail.eval m = some false) :
    Visited w kept i pending p .conflict := by
  have conflicting := h.conflicting hc falsified
  exact ⟨h, c, hc, conflicting.falsified, conflicting.watched⟩

end

/-- A visit ends without a fault, and is a step of unit propagation that leaves the head where it is.
The entries that it keeps, with those still pending, are the right watch list for the false literal. -/
theorem visit_spec {w : Lit n} {kept : Array Nat} {i : Nat} {pending : List Nat}
    (h : (p.listing w (kept ++ (i :: pending).toArray)).WellFormed)
    (next : p.trail.lits[p.head]? = some w.neg) : Yields (p.visit w i) fun (outcome, p') =>
      p.Extends p' ∧ p'.head = p.head ∧ Visited w kept i pending p' outcome := by
  have false : p.trail.eval w = some false := (h.trail.eval_eq_false_iff w).2 ⟨_, next⟩
  have mem : i ∈ (p.listing w (kept ++ (i :: pending).toArray)).watches.get w := by
    rw [watches_listing, if_pos rfl]
    simp
  unfold visit
  rcases h.slot_of_mem_watches mem with hole | ⟨stored, hc, watches⟩
  · have hole : p.store.slots[i]? = some none := hole
    rw [hole]
    exact Yields.ok ⟨.refl p, rfl, visited_of_hole h hole⟩
  · have hc : p.store.slots[i]? = some (some stored) := hc
    have turned : (({ p with store := p.store.put i (stored.turn w) } : Propagator n).listing w
        (kept ++ (i :: pending).toArray)).WellFormed := h.turn hc watches false
    have reordered := turn_reordered stored w
    have second := turn_second watches
    rw [hc]
    dsimp only
    generalize stored.turn w = c at *
    subst second
    rw [if_neg (not_not.2 rfl)]
    have step : p.Extends { p with store := p.store.put i c } :=
      .of_trail_eq (.put Clause.Reordered.refl hc reordered) rfl rfl
    have has : (p.store.put i c).Has i c := (ClauseStore.has_put_iff hc ..).2 (by simp)
    split
    · next holds =>
      exact Yields.ok
        ⟨step, rfl, visited_of_satisfied turned has ⟨c.first, by simp [Clause.lits], holds⟩⟩
    · next untrue =>
      have scanned := p.trail.scan_spec c.rest
      split
      · next found =>
        rw [found] at scanned
        obtain ⟨m, hm, holds⟩ := scanned
        exact Yields.ok
          ⟨step, rfl, visited_of_satisfied turned has ⟨m, by simp [Clause.lits, hm], holds⟩⟩
      · next before l after found =>
        rw [found] at scanned
        obtain ⟨parts, unassigned⟩ := scanned
        obtain ⟨first, absent⟩ := unlisted_of_mem_rest turned has (l := l) (by rw [parts]; simp)
        rw [if_neg first, absent, if_neg Bool.false_ne_true]
        refine Yields.ok ⟨step.trans ?_, rfl,
          visited_of_unassigned turned has false untrue parts unassigned⟩
        exact .of_trail_eq (.put Clause.Reordered.refl has (moved_reordered parts)) rfl rfl
      · next found =>
        rw [found] at scanned
        have others : ∀ m ∈ c.second :: c.rest, p.trail.eval m = some .false :=
          List.forall_mem_cons.2 ⟨false, scanned⟩
        split
        · next unknown =>
          have fresh : p.trail.eval c.first = none := by simpa using unknown
          have forced := Extends.assign_forced (p := { p with store := p.store.put i c })
            turned.trail has (.clause i) others
          exact Yields.ok ⟨step.trans forced, rfl, visited_of_forced turned has others fresh⟩
        · next known =>
          have falsified : p.trail.eval c.first = some .false := by
            cases value : p.trail.eval c.first with
            | none => simp [value] at known
            | some b => cases b <;> simp_all
          exact Yields.ok ⟨step, rfl,
            visited_of_falsified turned has (List.forall_mem_cons.2 ⟨falsified, others⟩)⟩

/-! ## One watch list -/

/-- A clause with a true literal keeps one. -/
theorem Satisfied.extends {p' : Propagator n} {c d : Clause n} (h : p.Satisfied c)
    (step : p.Extends p') (wf : p.trail.WellFormed) (wf' : p'.trail.WellFormed)
    (same : Clause.Reordered c d) : p'.Satisfied d := by
  obtain ⟨m, hm, holds⟩ := h
  exact ⟨m, same.1.mem_iff.2 hm, step.eval_of_true wf wf' holds⟩

/-- After the visits to all pending entries, each clause that still watches the literal has a true
one, unless a clause is false. -/
theorem visitAll_spec {w : Lit n} (k : Nat) (kept : Array Nat) (pending : List Nat)
    (p : Propagator n) (length : pending.length = k)
    (h : (p.listing w (kept ++ pending.toArray)).WellFormed)
    (next : p.trail.lits[p.head]? = some w.neg)
    (satisfied : ∀ i ∈ kept, ∀ c, p.store.Has i c → p.Satisfied c) :
    Yields (visitAll w kept pending p) fun (conflict, p') =>
      p.Extends p' ∧ p'.head = p.head ∧ p'.WellFormed ∧
        match conflict with
        | none => ∀ i c, p'.store.Has i c → c.Watches w → p'.Satisfied c
        | some i => ∃ c, p'.store.Has i c ∧ p'.Conflicting c := by
  induction k generalizing kept pending p with
  | zero =>
    cases List.eq_nil_of_length_eq_zero length
    rw [visitAll]
    have done : (p.listing w kept).WellFormed := h.of_perm (by simp)
    refine Yields.ok ⟨.of_trail_eq (.refl Clause.Reordered.refl _) rfl rfl, rfl, done, ?_⟩
    intro i c hc watches
    have mem := (done.mem_watches_iff hc w).2 watches
    rw [watches_listing, if_pos rfl] at mem
    exact satisfied i mem c hc
  | succ k ih =>
    cases pending with
    | nil => simp at length
    | cons i pending =>
      simp only [List.length_cons, Nat.add_right_cancel_iff] at length
      rw [visitAll]
      refine (visit_spec h next).bind ?_
      rintro ⟨outcome, p'⟩ ⟨step, head, visited⟩
      have next' : p'.trail.lits[p'.head]? = some w.neg := by
        rw [head]
        exact step.position next
      have still : p'.trail.WellFormed → ∀ j ∈ kept, ∀ d, p'.store.Has j d → p'.Satisfied d := by
        intro wf' j hj d hd
        obtain ⟨c, hc, same⟩ := step.store.has_of hd
        exact (satisfied j hj c hc).extends step h.trail wf' same
      cases outcome with
      | keep =>
        obtain ⟨wf', now⟩ := visited
        have satisfied' : ∀ j ∈ kept.push i, ∀ d, p'.store.Has j d → p'.Satisfied d := by
          intro j hj d hd
          rcases Array.mem_push.1 hj with old | rfl
          · exact still wf'.trail j old d hd
          · exact now d hd
        refine (ih (kept.push i) pending p' length wf' next' satisfied').mono ?_
        rintro ⟨conflict, p''⟩ ⟨step', head', rest⟩
        exact ⟨step.trans step', head'.trans head, rest⟩
      | drop =>
        have length' : (lastToFront pending).length = k := by
          rw [length_lastToFront, length]
        refine (ih kept _ p' length' visited next' (still visited.trail)).mono ?_
        rintro ⟨conflict, p''⟩ ⟨step', head', rest⟩
        exact ⟨step.trans step', head'.trans head, rest⟩
      | conflict =>
        obtain ⟨wf', c, hc, conflict⟩ := visited
        refine Yields.ok ⟨?_, head, wf', c, hc, conflict.falsified, conflict.watched⟩
        exact step.trans (.of_trail_eq (.refl Clause.Reordered.refl _) rfl rfl)

/-! ## The trail -/

/-- Once every clause that watches the negation of the head literal has a true one, the head can
move on. -/
theorem WellFormed.advance {l : Lit n} (h : p.WellFormed) (next : p.trail.lits[p.head]? = some l)
    (satisfied : ∀ i c, p.store.Has i c → c.Watches l.neg → p.Satisfied c) :
    ({ p with head := p.head + 1 } : Propagator n).WellFormed where
  trail := h.trail
  store := h.store
  justified := h.justified
  listed := h.listed
  inRange := h.inRange
  head_le := (Array.getElem?_eq_some_iff.1 next).1
  current := fun i hi lt => h.current i (Nat.le_of_succ_le hi) lt
  served := by
    intro i c hc w hw k hk at_k
    by_cases before : k < p.head
    · exact h.served i c hc w hw k before at_k
    · have last : k = p.head := by
        change k < p.head + 1 at hk
        omega
      have at_k : p.trail.lits[k]? = some w.neg := at_k
      rw [last, next, Option.some.injEq] at at_k
      obtain ⟨m, hm, holds⟩ := satisfied i c hc (by rwa [at_k, Literal.neg_neg])
      refine ⟨m, hm, holds, ?_⟩
      have depth := h.toLinked.depth_of_head_le (Nat.le_refl _) next
      rw [at_k, Trail.depth_neg] at depth
      change p.trail.depth m ≤ p.trail.depth w
      rw [depth]
      exact h.trail.depth_le_level m

/-- Before the first visit the list of the literal is as it was. -/
theorem WellFormed.visiting (h : p.WellFormed) (w : Lit n) :
    (({ p with propagations := p.propagations + 1 } : Propagator n).listing w
      (#[] ++ (p.watches.get w).toList.toArray)).WellFormed :=
  h.of_eq rfl rfl (LitMap.set_get_self _ _ (by simp)) rfl

/-- The clauses that watch the negation of the head literal are visited. Then the head can move on, or
one of them is false. -/
theorem visitHead_spec (h : p.WellFormed) {l : Lit n} (next : p.trail.lits[p.head]? = some l) :
    Yields (visitAll l.neg #[] (p.watches.get l.neg).toList
        { p with propagations := p.propagations + 1 }) fun (conflict, p') =>
      p.Extends p' ∧ p'.head = p.head ∧ match conflict with
        | none => ({ p' with head := p'.head + 1 } : Propagator n).WellFormed
        | some i => p'.WellFormed ∧ ∃ c, p'.store.Has i c ∧ p'.Conflicting c := by
  have next' : p.trail.lits[p.head]? = some l.neg.neg := by rwa [Literal.neg_neg]
  refine (visitAll_spec _ #[] _ _ rfl (h.visiting l.neg) next' (by simp)).mono ?_
  rintro ⟨conflict, p'⟩ ⟨step, head, wf', rest⟩
  have step : p.Extends p' := ⟨step.store, step.starts, step.lits, step.forced, step.consistent⟩
  have head : p'.head = p.head := head
  cases conflict with
  | some i => exact ⟨step, head, wf', rest⟩
  | none =>
    refine ⟨step, head, wf'.advance ?_ rest⟩
    rw [head]
    exact step.position next

/-- Propagating as many literals as variables are left is enough to reach the end of the trail, if no
clause becomes false. -/
theorem propagateUpTo_spec (k : Nat) (p : Propagator n) (h : p.WellFormed)
    (enough : n ≤ p.head + k) : Yields (propagateUpTo k p) fun (conflict, p') =>
      p.Extends p' ∧ p'.WellFormed ∧
        match conflict with
        | none => p'.head = p'.trail.size
        | some i => ∃ c, p'.store.Has i c ∧ p'.Conflicting c := by
  induction k generalizing p with
  | zero =>
    have bound := h.trail.size_le
    have low := h.head_le
    rw [propagateUpTo, if_neg (by omega)]
    exact Yields.ok ⟨.refl p, h, by omega⟩
  | succ k ih =>
    rw [propagateUpTo]
    cases next : p.trail.lits[p.head]? with
    | none =>
      have high : p.trail.size ≤ p.head := Array.getElem?_eq_none_iff.1 next
      have low := h.head_le
      exact Yields.ok ⟨.refl p, h, by omega⟩
    | some l =>
      refine (visitHead_spec h next).bind ?_
      rintro ⟨conflict, p'⟩ ⟨step, head, rest⟩
      cases conflict with
      | some i => exact Yields.ok ⟨step, rest⟩
      | none =>
        refine (ih _ rest ?_).mono ?_
        · change n ≤ p'.head + 1 + k
          omega
        · rintro ⟨conflict, p''⟩ ⟨step', rest⟩
          refine ⟨step.trans ?_, rest⟩
          exact ⟨step'.store, step'.starts, step'.lits, step'.forced, step'.consistent⟩

/-- Propagation ends without a fault. It reaches the end of the trail, or finds a clause that is
false at the current level. -/
theorem propagate_spec (h : p.WellFormed) : Yields p.propagate fun (conflict, p') =>
    p.Extends p' ∧ p'.WellFormed ∧
      match conflict with
      | none => p'.head = p'.trail.size
      | some i => ∃ c, p'.store.Has i c ∧ p'.Conflicting c :=
  propagateUpTo_spec n p h (by omega)

/-- Once everything is propagated, a clause without a true literal has two unassigned ones. -/
theorem WellFormed.satisfied_or_unassigned (h : p.WellFormed) (done : p.head = p.trail.size)
    {i : Nat} {c : Clause n} (hc : p.store.Has i c) :
    p.Satisfied c ∨ (p.trail.eval c.first = none ∧ p.trail.eval c.second = none) := by
  by_cases holds : p.Satisfied c
  · exact .inl holds
  · right
    have unassigned : ∀ w, c.Watches w → p.trail.eval w = none := by
      intro w hw
      cases value : p.trail.eval w with
      | none => rfl
      | some b =>
        exfalso
        apply holds
        cases b with
        | true => exact ⟨w, hw.mem, value⟩
        | false =>
          obtain ⟨k, hk⟩ := (h.trail.eval_eq_false_iff w).1 value
          have lt : k < p.trail.size := (Array.getElem?_eq_some_iff.1 hk).1
          obtain ⟨m, hm, true, -⟩ := h.served i c hc w hw k (by omega) hk
          exact ⟨m, hm, true⟩
    exact ⟨unassigned c.first (.inl rfl), unassigned c.second (.inr rfl)⟩

end Propagator

end IncrementalSat
