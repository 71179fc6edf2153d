import IncrementalSat.Proofs.Store.Matching
import IncrementalSat.Proofs.Trail.Backtrack
import IncrementalSat.Propagator.Basic

/-!
# Well-formed propagators

Every literal of the trail is justified, every clause is listed under exactly its two watched
literals, and a watched literal that is false and propagated has an excuse: a true literal in its
clause, of no higher level. The excuse survives backtracking, because the levels go together.
-/
namespace IncrementalSat

/-- The literal is one of the two that the clause watches. -/
def Clause.Watches {n : Nat} (c : Clause n) (l : Lit n) : Prop := l = c.first ∨ l = c.second

instance {n : Nat} (c : Clause n) (l : Lit n) : Decidable (c.Watches l) :=
  inferInstanceAs (Decidable (_ ∨ _))

theorem Clause.Watches.mem {n : Nat} {c : Clause n} {l : Lit n} (h : c.Watches l) : l ∈ c.lits := by
  rcases h with rfl | rfl <;> simp [Clause.lits]

namespace Trail

variable {n : Nat}

/-- Why a literal may stand at its position of the trail. -/
inductive Justified (t : Trail n) (s : ClauseStore n) (i : Nat) (l : Lit n) : Prop
  | fixed (root : t.levelAt i = 0) (reason : t.reasonOf l.var = some .root)
  | decided (above : 0 < t.levelAt i) (reason : t.reasonOf l.var = some .decision)
      (start : i ∈ t.starts.toList)
  | implied (above : 0 < t.levelAt i) (j : Nat) (c : Clause n)
      (reason : t.reasonOf l.var = some (.clause j)) (has : s.Has j c) (first : c.first = l)
      (others : ∀ m ∈ c.lits, m ≠ l → ∃ k < i, t.lits[k]? = some m.neg)

/-- The watched literal of the clause may stay false: another one is true, and stays so for as long
as the watched literal has its value. -/
def Excused (t : Trail n) (c : Clause n) (w : Lit n) : Prop :=
  ∃ m ∈ c.lits, t.eval m = some true ∧ t.depth m ≤ t.depth w

/-- A justification depends on the earlier part of the trail, and on the clause it names. -/
theorem Justified.transfer {t t' : Trail n} {s s' : ClauseStore n} {i : Nat} {l : Lit n}
    (h : t.Justified s i l) (level : t'.levelAt i = t.levelAt i)
    (reason : t'.reasonOf l.var = t.reasonOf l.var)
    (starts : i ∈ t.starts.toList → i ∈ t'.starts.toList)
    (lits : ∀ k < i, ∀ m, t.lits[k]? = some m → t'.lits[k]? = some m)
    (clauses : ∀ j c, t.reasonOf l.var = some (.clause j) → 0 < t.levelAt i → s.Has j c →
      c.first = l → ∃ d, s'.Has j d ∧ d.first = l ∧ ∀ m ∈ d.lits, m ∈ c.lits) :
    t'.Justified s' i l := by
  cases h with
  | fixed root reason' => exact .fixed (level.trans root) (reason.trans reason')
  | decided above reason' start =>
    exact .decided (by omega) (reason.trans reason') (starts start)
  | implied above j c reason' has first others =>
    obtain ⟨d, hd, first', sub⟩ := clauses j c reason' above has first
    refine .implied (by omega) j d (reason.trans reason') hd first' ?_
    intro m hm different
    obtain ⟨k, hk, at_k⟩ := others m (sub m hm) different
    exact ⟨k, hk, lits k hk m.neg at_k⟩

/-- At the root level no clause is needed. -/
theorem Justified.of_root {t : Trail n} {s s' : ClauseStore n} {i : Nat} {l : Lit n}
    (h : t.Justified s i l) (root : t.level = 0) : t.Justified s' i l := by
  have low : t.levelAt i = 0 := by
    have := t.levelAt_le_level i
    omega
  cases h with
  | fixed _ reason => exact .fixed low reason
  | decided above _ _ => omega
  | implied above _ _ _ _ _ _ => omega

/-- A new literal takes away no excuse. -/
theorem Excused.assign {t : Trail n} {c : Clause n} {w l : Lit n} {r : Reason} {b : Bool}
    (h : t.Excused c w) (fresh : t.eval l = none) (value : t.eval w = some b) :
    (t.assign l r).Excused c w := by
  obtain ⟨m, hm, holds, low⟩ := h
  refine ⟨m, hm, Trail.eval_assign_of_eval fresh holds, ?_⟩
  rw [Trail.depth_assign_of_eval fresh holds, Trail.depth_assign_of_eval fresh value]
  exact low

/-- A literal that stays on the trail is justified as before. -/
theorem Justified.backtrack {t : Trail n} {s : ClauseStore n} {i : Nat} {l : Lit n}
    (h : t.Justified s i l) (wf : t.WellFormed) (at_i : t.lits[i]? = some l) {level : Nat}
    (low : t.levelAt i ≤ level) : (t.backtrack level).Justified s i l := by
  refine h.transfer (wf.levelAt_backtrack low) ?_ (wf.mem_starts_backtrack low) ?_ ?_
  · rw [wf.reasonOf_backtrack, if_pos]
    rwa [wf.depth_of_position at_i]
  · intro k hk m hm
    refine (wf.position_backtrack level k m).2 ⟨hm, ?_⟩
    rw [wf.depth_of_position hm]
    exact Nat.le_trans (t.levelAt_mono (Nat.le_of_lt hk)) low
  · intro j c _ _ hc first
    exact ⟨c, hc, first, fun _ hm => hm⟩

/-- A watched literal that keeps its value keeps its excuse, which is of no higher level. -/
theorem Excused.backtrack {t : Trail n} {c : Clause n} {w : Lit n} (h : t.Excused c w)
    (wf : t.WellFormed) {level : Nat} (low : t.depth w ≤ level) :
    (t.backtrack level).Excused c w := by
  obtain ⟨m, hm, holds, le⟩ := h
  have stays := Nat.le_trans le low
  refine ⟨m, hm, ?_, ?_⟩
  · rw [wf.eval_backtrack, if_pos stays, holds]
  · rw [wf.depth_backtrack, if_pos stays, wf.depth_backtrack, if_pos low]
    exact le

end Trail

namespace Propagator

variable {n : Nat}

/-- What holds of a propagator between any two changes. -/
structure Linked (p : Propagator n) : Prop where
  trail : p.trail.WellFormed
  store : p.store.WellFormed
  justified : ∀ (i : Nat) (l : Lit n), p.trail.lits[i]? = some l → p.trail.Justified p.store i l
  listed : ∀ i c, p.store.Has i c → ∀ l,
    (p.watches.get l).count i = if c.Watches l then 1 else 0
  inRange : ∀ l, ∀ i ∈ p.watches.get l, i < p.store.size
  head_le : p.head ≤ p.trail.size
  /-- Only the literals of the current level wait for propagation. -/
  current : ∀ i, p.head ≤ i → i < p.trail.size → p.trail.levelAt i = p.trail.level

/-- What holds of a propagator between operations. -/
structure WellFormed (p : Propagator n) : Prop extends Linked p where
  served : ∀ i c, p.store.Has i c → ∀ w, c.Watches w → ∀ k < p.head,
    p.trail.lits[k]? = some w.neg → p.trail.Excused c w

variable {p : Propagator n}

namespace Linked

/-- The two watched literals are over different variables. -/
theorem watched_ne (h : p.Linked) {i : Nat} {c : Clause n} (hc : p.store.Has i c) :
    c.first.var ≠ c.second.var := by
  have nodup := h.store.distinct i c hc
  simp only [Clause.lits, List.map_cons, List.nodup_cons, List.mem_cons, not_or] at nodup
  exact nodup.1.1

/-- A clause is listed where it is watched. -/
theorem mem_watches_iff (h : p.Linked) {i : Nat} {c : Clause n} (hc : p.store.Has i c)
    (l : Lit n) : i ∈ p.watches.get l ↔ c.Watches l := by
  rw [← Array.count_pos_iff, h.listed i c hc]
  split <;> simp_all

/-- An entry of a watch list is the index of a hole or of a clause that watches the literal. -/
theorem slot_of_mem_watches (h : p.Linked) {i : Nat} {l : Lit n} (hi : i ∈ p.watches.get l) :
    p.store.slots[i]? = some none ∨ ∃ c, p.store.Has i c ∧ c.Watches l := by
  have inside : i < p.store.slots.size := h.inRange l i hi
  cases slot : p.store.slots[i] with
  | none => exact .inl (Array.getElem?_eq_some_iff.2 ⟨inside, slot⟩)
  | some c =>
    have hc : p.store.Has i c := Array.getElem?_eq_some_iff.2 ⟨inside, slot⟩
    exact .inr ⟨c, hc, (h.mem_watches_iff hc l).1 hi⟩

/-- A false literal that waits for propagation is of the current level. -/
theorem depth_of_head_le (h : p.Linked) {k : Nat} {l : Lit n} (hk : p.head ≤ k)
    (at_k : p.trail.lits[k]? = some l) : p.trail.depth l = p.trail.level := by
  rw [h.trail.depth_of_position at_k]
  exact h.current k hk (Array.getElem?_eq_some_iff.1 at_k).1

end Linked

/-- The flag and the counter do not matter. -/
theorem WellFormed.of_eq {p' : Propagator n} (h : p.WellFormed) (store : p'.store = p.store)
    (trail : p'.trail = p.trail) (watches : p'.watches = p.watches) (head : p'.head = p.head) :
    p'.WellFormed := by
  obtain ⟨store', trail', watches', head', _, _⟩ := p'
  simp only at store trail watches head
  subst store trail watches head
  exact ⟨⟨h.trail, h.store, h.justified, h.listed, h.inRange, h.head_le, h.current⟩, h.served⟩

/-! ## Changing the store under the trail -/

/-- Only the literals of clauses matter, not their activities. -/
theorem WellFormed.of_matches {s : ClauseStore n} (h : p.WellFormed)
    (same : p.store.Matches Clause.Rated s) : ({ p with store := s } : Propagator n).WellFormed where
  trail := h.trail
  store := (same.mono fun _ _ r => r.reordered).wellFormed h.store
  justified := by
    intro i l hi
    refine (h.justified i l hi).transfer rfl rfl id (fun _ _ _ hm => hm) ?_
    intro j c _ _ hc first
    obtain ⟨d, hd, rated⟩ := same.has hc
    exact ⟨d, hd, rated.1.trans first, fun m hm => by rwa [← rated.lits]⟩
  listed := by
    intro i d hd l
    obtain ⟨c, hc, rated⟩ := same.has_of hd
    have := h.listed i c hc l
    simp only [Clause.Watches, rated.1, rated.2.1] at this ⊢
    exact this
  inRange := by
    intro l i hi
    rw [show ({ p with store := s } : Propagator n).store.size = p.store.size from same.size_eq]
    exact h.inRange l i hi
  head_le := h.head_le
  current := h.current
  served := by
    intro i d hd w hw k hk at_k
    obtain ⟨c, hc, rated⟩ := same.has_of hd
    have hw' : c.Watches w := by simpa only [Clause.Watches, rated.1, rated.2.1] using hw
    obtain ⟨m, hm, holds, low⟩ := h.served i c hc w hw' k hk at_k
    exact ⟨m, by rwa [rated.lits], holds, low⟩

/-! ## Assigning -/

theorem Linked.assign (h : p.Linked) {l : Lit n} {r : Reason} (fresh : p.trail.eval l = none)
    (why : (p.trail.assign l r).Justified p.store p.trail.size l) : (p.assign l r).Linked where
  trail := h.trail.assign fresh r
  store := h.store
  justified := by
    intro i m hi
    rcases (Trail.position_assign ..).1 hi with old | ⟨rfl, rfl⟩
    · have value := h.trail.eval_of_position old
      refine (h.justified i m old).transfer rfl ?_ id ?_ ?_
      · change (p.trail.assign l r).reasonOf m.var = _
        rw [Trail.reasonOf_assign, if_neg (Trail.var_ne_of_eval fresh value)]
      · intro k _ m' hm'
        exact (Trail.position_assign ..).2 (.inl hm')
      · intro j c _ _ hc first
        exact ⟨c, hc, first, fun _ hm => hm⟩
    · exact why
  listed := h.listed
  inRange := h.inRange
  head_le := by
    have := h.head_le
    change p.head ≤ (p.trail.assign l r).size
    rw [Trail.size_assign]
    omega
  current := by
    intro i hi lt
    change i < (p.trail.assign l r).size at lt
    change p.trail.levelAt i = p.trail.level
    rw [Trail.size_assign] at lt
    by_cases last : i < p.trail.size
    · exact h.current i hi last
    · exact h.trail.levelAt_of_size_le (by omega)

theorem WellFormed.assign (h : p.WellFormed) {l : Lit n} {r : Reason}
    (fresh : p.trail.eval l = none)
    (why : (p.trail.assign l r).Justified p.store p.trail.size l) : (p.assign l r).WellFormed where
  toLinked := h.toLinked.assign fresh why
  served := by
    intro i c hc w hw k hk at_k
    have lt : k < p.trail.size := Nat.lt_of_lt_of_le hk h.head_le
    rcases (Trail.position_assign ..).1 at_k with old | ⟨rfl, -⟩
    · have value := (h.trail.eval_eq_false_iff w).2 ⟨k, old⟩
      exact (h.served i c hc w hw k hk old).assign fresh value
    · omega

/-! ## Opening levels -/

theorem WellFormed.openLevel (h : p.WellFormed) (done : p.head = p.trail.size) :
    ({ p with trail := p.trail.openLevel } : Propagator n).WellFormed where
  trail := h.trail.openLevel
  store := h.store
  justified := by
    intro i l hi
    have lt : i < p.trail.size := (Array.getElem?_eq_some_iff.1 hi).1
    refine (h.justified i l hi).transfer (p.trail.levelAt_openLevel lt) rfl ?_ ?_ ?_
    · intro start
      simp [Trail.openLevel, start]
    · exact fun _ _ _ hm => hm
    · intro j c _ _ hc first
      exact ⟨c, hc, first, fun _ hm => hm⟩
  listed := h.listed
  inRange := h.inRange
  head_le := h.head_le
  current := by
    intro i hi lt
    change p.head ≤ i at hi
    change i < p.trail.size at lt
    omega
  served := h.served

/-! ## Backtracking -/

/-- Every level starts within the trail, so there is always a way back. -/
theorem WellFormed.retreat (h : p.WellFormed) (level : Nat) :
    p.retreat level = .ok (p.backtrack level) := by
  have reached : p.trail.starts[level]?.all (· ≤ p.trail.size) = true := by
    cases start : p.trail.starts[level]? with
    | none => rfl
    | some k =>
      have mem : k ∈ p.trail.starts.toList := by
        rw [Array.mem_toList_iff]
        exact Array.mem_of_getElem? start
      simpa using h.trail.starts_le k mem
  rw [Propagator.retreat, if_pos reached]

/-- Going back to a level leaves every invariant as it is. -/
theorem WellFormed.backtrack (h : p.WellFormed) (level : Nat) : (p.backtrack level).WellFormed where
  trail := h.trail.backtrack level
  store := h.store
  justified := by
    intro i l hi
    obtain ⟨old, low⟩ := (h.trail.position_backtrack level i l).1 hi
    rw [h.trail.depth_of_position old] at low
    exact (h.justified i l old).backtrack h.trail old low
  listed := h.listed
  inRange := h.inRange
  head_le := Nat.min_le_right _ _
  current := by
    intro i hi lt
    change min p.head (p.trail.backtrack level).size ≤ i at hi
    change i < (p.trail.backtrack level).size at lt
    change (p.trail.backtrack level).levelAt i = (p.trail.backtrack level).level
    have le := h.trail.size_backtrack_le level
    have now := h.current i (by omega) (by omega)
    by_cases hk : level < p.trail.starts.size
    · rw [h.trail.size_backtrack hk] at lt
      have := (h.trail.levelAt_le_iff hk i).2 lt
      have : level < p.trail.level := hk
      omega
    · rwa [Trail.backtrack_of_level_le (Nat.not_lt.1 hk)]
  served := by
    intro i c hc w hw k hk at_k
    change k < min p.head (p.trail.backtrack level).size at hk
    obtain ⟨old, low⟩ := (h.trail.position_backtrack level k w.neg).1 at_k
    rw [Trail.depth_neg] at low
    exact (h.served i c hc w hw k (by omega) old).backtrack h.trail low

end Propagator

end IncrementalSat
