import IncrementalSat.Proofs.Analysis.Marks

/-!
# The walk down the trail

Each step of the walk resolves the clause under analysis with the reason of its newest literal. The
walk ends at the implication point, where one literal of the current level is left.
-/
namespace IncrementalSat

namespace Analysis

variable {n : Nat} {p : Propagator n} {a a' : Analysis n} {position : Nat} {l : Lit n}

/-- The clause under analysis follows from what is said. -/
def Derived (p : Propagator n) (a : Analysis n) : Prop :=
  ∀ σ, p.Valid σ → ∃ l, Open p.trail a l ∧ l.Holds σ

/-- The analysis after the walk, which ended at the implication point. -/
structure Pivot (p : Propagator n) (u : Lit n) (a : Analysis n) : Prop where
  marked : ∃ position, Marked p position a
  settled : a.pending = 0
  falsified : p.trail.eval u = some false
  full : p.trail.depth u = p.trail.level
  occurs : ∃ i c, p.store.Has i c ∧ u ∈ c.lits
  derived : ∀ σ, p.Valid σ → u.Holds σ ∨ ∃ l ∈ a.lower, l.Holds σ

/-! ## Marked variables of the current level -/

theorem Marked.position_of_current (h : Marked p position a) (wf : p.trail.WellFormed) {v : Fin n}
    (hv : v ∈ current p.trail a) : ∃ k < position, ∃ m : Lit n, p.trail.lits[k]? = some m ∧
      m.var = v ∧ p.trail.levelAt k = p.trail.level := by
  obtain ⟨seen, full⟩ := (mem_current_iff ..).1 hv
  obtain ⟨k, m, hk, rfl, -, before⟩ := h.below v seen
  have level : p.trail.levelAt k = p.trail.level := (wf.depth_of_position hk).symm.trans full
  exact ⟨k, before level, m, hk, rfl, level⟩

/-- While literals are pending, the newest marked literal is of the current level. -/
theorem Marked.depth_of_pending (h : Marked p (position + 1) a) (wf : p.trail.WellFormed)
    (waiting : 0 < a.pending) (at_l : p.trail.lits[position]? = some l) :
    p.trail.depth l = p.trail.level := by
  rw [h.pending, Finset.card_pos] at waiting
  obtain ⟨v, hv⟩ := waiting
  obtain ⟨k, hk, m, -, -, level⟩ := h.position_of_current wf hv
  have mono := p.trail.levelAt_mono (Nat.le_of_lt_succ hk)
  have bound := p.trail.levelAt_le_level position
  rw [wf.depth_of_position at_l]
  omega

/-- While two literals are pending, the newest of them is no decision. -/
theorem Marked.reason_of_pending (h : Marked p (position + 1) a) (linked : p.Linked)
    (above : p.trail.level ≠ 0) (several : 1 < a.pending)
    (at_l : p.trail.lits[position]? = some l) : ∃ i c,
      p.trail.reasonOf l.var = some (.clause i) ∧ p.store.Has i c ∧ c.first = l ∧
        ∀ m ∈ c.lits, m ≠ l → ∃ k < position, p.trail.lits[k]? = some m.neg := by
  have full := h.depth_of_pending linked.trail (by omega) at_l
  have level := (linked.trail.depth_of_position at_l).symm.trans full
  cases linked.justified position l at_l with
  | fixed root => omega
  | implied _ i c reason hc first others => exact ⟨i, c, reason, hc, first, others⟩
  | decided _ _ start =>
    exfalso
    rw [h.pending] at several
    obtain ⟨v, hv, other⟩ := Finset.exists_mem_ne several l.var
    obtain ⟨k, hk, m, at_m, rfl, level'⟩ := h.position_of_current linked.trail hv
    have not_here : k ≠ position := by
      rintro rfl
      rw [at_m, Option.some.injEq] at at_l
      exact other (congrArg Literal.var at_l)
    have := p.trail.levelAt_lt_of_start (show k < position by omega) start
    omega

/-! ## Moving down -/

theorem Marked.skip (h : Marked p (position + 1) a) (at_l : p.trail.lits[position]? = some l)
    (unseen : ¬ a.Sees l.var) : Marked p position a where
  store := h.store
  heap := h.heap
  below := by
    intro v hv
    obtain ⟨k, m, hk, rfl, above, before⟩ := h.below v hv
    refine ⟨k, m, hk, rfl, above, fun level => ?_⟩
    have not_here : k ≠ position := by
      rintro rfl
      rw [hk, Option.some.injEq] at at_l
      exact unseen (at_l ▸ hv)
    have := before level
    omega
  occurs := h.occurs
  lower := h.lower
  collected := h.collected
  nodup := h.nodup
  pending := h.pending

/-- The analysis after a variable is unmarked, with some number pending. -/
def unmark (a : Analysis n) (v : Fin n) (pending : Nat) : Analysis n :=
  { a with seen := a.seen.set v false v.isLt, pending }

theorem sees_unmark_iff (a : Analysis n) (v w : Fin n) (k : Nat) :
    (a.unmark v k).Sees w ↔ v ≠ w ∧ a.Sees w := by
  change (a.seen.set v false).get w = true ↔ _
  rw [sees_set_iff]
  split
  · next same => simp [same]
  · next other => simp [other, Sees]

theorem Marked.unmark (h : Marked p (position + 1) a) (at_l : p.trail.lits[position]? = some l)
    (seen : a.Sees l.var) (full : p.trail.depth l = p.trail.level) {k : Nat}
    (pending : a.pending = k + 1) : Marked p position (a.unmark l.var k) := by
  have sub : ∀ m, Open p.trail (a.unmark l.var k) m → Open p.trail a m :=
    fun m hm => ⟨hm.1, ((sees_unmark_iff ..).1 hm.2).2⟩
  have marked : Marked p (position + 1) a := h
  refine ⟨⟨h.store, h.heap, ?_, fun m hm => h.occurs m (sub m hm)⟩, ?_, ?_, h.nodup, ?_⟩
  · intro v hv
    obtain ⟨other, old⟩ := (sees_unmark_iff ..).1 hv
    obtain ⟨j, m, hj, rfl, above, before⟩ := h.below v old
    refine ⟨j, m, hj, rfl, above, fun level => ?_⟩
    have not_here : j ≠ position := by
      rintro rfl
      rw [hj, Option.some.injEq] at at_l
      exact other (congrArg Literal.var at_l.symm)
    have := before level
    omega
  · intro m hm
    obtain ⟨⟨false, old⟩, low⟩ := h.lower m hm
    refine ⟨⟨false, (sees_unmark_iff ..).2 ⟨?_, old⟩⟩, low⟩
    intro same
    have : p.trail.depth l = p.trail.depth m := by
      unfold Trail.depth
      rw [same]
    omega
  · exact fun m hm low => h.collected m (sub m hm) low
  · have shrunk : current p.trail (a.unmark l.var k) = (current p.trail a).erase l.var := by
      ext v
      rw [Finset.mem_erase, mem_current_iff, mem_current_iff, sees_unmark_iff]
      constructor
      · rintro ⟨⟨other, old⟩, level⟩
        exact ⟨Ne.symm other, old, level⟩
      · rintro ⟨other, old, level⟩
        exact ⟨⟨Ne.symm other, old⟩, level⟩
    have mem : l.var ∈ current p.trail a := (mem_current_iff ..).2 ⟨seen, full⟩
    rw [shrunk, Finset.card_erase_of_mem mem, ← h.pending, pending]
    rfl

/-! ## Resolution -/

/-- Resolving the clause under analysis with a reason leads to a clause that follows as well. -/
theorem Derived.resolve (h : Derived p a) {i : Nat} {c : Clause n}
    (hc : p.store.Has i c) (false : p.trail.eval l.neg = some false)
    (others : ∀ m ∈ c.lits, m ≠ l → p.trail.eval m = some .false)
    (kept : ∀ v, v ≠ l.var → a.Sees v → a'.Sees v)
    (met : ∀ m ∈ c.lits, m ≠ l → p.trail.depth m = 0 ∨ a'.Sees m.var) : Derived p a' := by
  intro σ valid
  obtain ⟨m, ⟨false', seen⟩, holds⟩ := h σ valid
  by_cases same : m.var = l.var
  · have eq : m = l.neg := Trail.eq_of_eval false false' same.symm
    obtain ⟨k, hk, true⟩ := valid.clauses i c hc
    have other : k ≠ l := by
      rintro rfl
      rw [eq] at holds
      exact (Lit.holds_neg_iff σ k).1 holds true
    rcases met k hk other with root | now
    · have fixed : p.Fixes k.neg :=
        ⟨(Trail.eval_neg_eq_true_iff ..).2 (others k hk other), root⟩
      exact absurd true ((Lit.holds_neg_iff σ k).1 (valid.facts _ fixed))
    · exact ⟨k, ⟨others k hk other, now⟩, true⟩
  · exact ⟨m, ⟨false', kept m.var same seen⟩, holds⟩

/-- At the implication point every other literal of the clause under analysis is collected. -/
theorem Marked.pivot (h : Marked p (position + 1) a) (wf : p.trail.WellFormed)
    (at_l : p.trail.lits[position]? = some l) (seen : a.Sees l.var) (single : a.pending = 1)
    (derived : Derived p a) : Pivot p l.neg (a.unmark l.var 0) := by
  have full := h.depth_of_pending wf (by omega) at_l
  have false : p.trail.eval l.neg = some .false :=
    (Trail.eval_neg_eq_false_iff ..).2 (wf.eval_of_position at_l)
  refine ⟨⟨position, h.unmark at_l seen full single⟩, rfl, false, full, ?_, ?_⟩
  · exact h.occurs l.neg ⟨false, seen⟩
  · intro σ valid
    obtain ⟨m, opened, holds⟩ := derived σ valid
    by_cases same : l.var = m.var
    · exact .inl (Trail.eq_of_eval false opened.1 same ▸ holds)
    · refine .inr ⟨m, h.collected m opened ?_, holds⟩
      have bound := wf.depth_le_level m
      have not_full : p.trail.depth m ≠ p.trail.level := by
        intro full'
        rw [h.pending, Finset.card_eq_one] at single
        obtain ⟨v, only⟩ := single
        have mine : l.var ∈ current p.trail a := (mem_current_iff ..).2 ⟨seen, full⟩
        have other : m.var ∈ current p.trail a := (mem_current_iff ..).2 ⟨opened.2, full'⟩
        rw [only, Finset.mem_singleton] at mine other
        exact same (mine.trans other.symm)
      omega

/-- The walk ends at the implication point. -/
theorem walk_spec (linked : p.Linked) (above : p.trail.level ≠ 0) (position : Nat)
    (a : Analysis n) (inside : position ≤ p.trail.size) (h : Marked p position a)
    (waiting : 0 < a.pending) (derived : Derived p a) :
    Yields (walk p.trail position a) fun (u, a') => Pivot p u a' := by
  have wf := linked.trail
  induction position generalizing a with
  | zero =>
    exfalso
    rw [h.pending, Finset.card_pos] at waiting
    obtain ⟨v, hv⟩ := waiting
    obtain ⟨k, hk, -⟩ := h.position_of_current wf hv
    omega
  | succ position ih =>
    obtain ⟨l, at_l⟩ : ∃ l, p.trail.lits[position]? = some l := ⟨_, Array.getElem?_eq_getElem inside⟩
    rw [walk, at_l]
    dsimp only
    by_cases seen : a.Sees l.var
    · rw [show a.seen.get l.var = true from seen]
      have full := h.depth_of_pending wf waiting at_l
      match pending : a.pending with
      | 0 => omega
      | 1 => exact Yields.ok (h.pivot wf at_l seen pending derived)
      | k + 2 =>
        obtain ⟨i, c, reason, hc, first, others⟩ :=
          h.reason_of_pending linked above (by omega) at_l
        have down : Marked p position (a.unmark l.var (k + 1)) := h.unmark at_l seen full pending
        have before : ∀ m ∈ c.lits, some l ≠ some m → ∃ j < position,
            p.trail.lits[j]? = some m.neg :=
          fun m hm other => others m hm fun eq => other (by rw [eq])
        have step := meetClause_spec down wf hc (some l) before
        simp only [reason]
        refine step.bind ?_
        intro a' ⟨marked, grows, met⟩
        have kept : ∀ v, v ≠ l.var → a.Sees v → a'.Sees v := fun v other old =>
          grows v ((sees_unmark_iff ..).2 ⟨Ne.symm other, old⟩)
        have false : p.trail.eval l.neg = some .false :=
          (Trail.eval_neg_eq_false_iff ..).2 (wf.eval_of_position at_l)
        have falsified : ∀ m ∈ c.lits, m ≠ l → p.trail.eval m = some .false := by
          intro m hm other
          obtain ⟨j, -, hj⟩ := others m hm other
          exact (wf.eval_eq_false_iff m).2 ⟨j, hj⟩
        have derived' : Derived p a' := derived.resolve hc false falsified kept
          fun m hm other => met m hm fun eq => other (Option.some.inj eq).symm
        have pending' : 0 < a'.pending := by
          have sub : current p.trail (a.unmark l.var (k + 1)) ⊆ current p.trail a' := by
            intro v hv
            obtain ⟨old, level⟩ := (mem_current_iff ..).1 hv
            exact (mem_current_iff ..).2 ⟨grows v old, level⟩
          have le := Finset.card_le_card sub
          have before : (a.unmark l.var (k + 1)).pending = k + 1 := rfl
          rw [← down.pending, ← marked.pending] at le
          omega
        exact ih a' (by omega) marked pending' derived'
    · rw [show a.seen.get l.var = false from by simpa [Sees] using seen]
      exact ih a (by omega) (h.skip at_l seen) waiting derived

end Analysis

end IncrementalSat
