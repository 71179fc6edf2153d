import IncrementalSat.Proofs.Propagator.Basic
import IncrementalSat.Proofs.Valuation

/-!
# Unit closure

The literals that unit propagation can reach from some literals by the clauses of a store. They are
consequences of both, and their variables occur there. A propagator extends another one if its trail
continues the other trail within the closure.
-/
namespace IncrementalSat

namespace ClauseStore

variable {n : Nat}

/-- Unit propagation leads from the base to the literal. -/
inductive Forces (s : ClauseStore n) (base : List (Lit n)) : Lit n → Prop
  | given {l : Lit n} (mem : l ∈ base) : Forces s base l
  | unit {i : Nat} {c : Clause n} {l : Lit n} (has : s.Has i c) (mem : l ∈ c.lits)
      (others : ∀ m ∈ c.lits, m ≠ l → Forces s base m.neg) : Forces s base l

namespace Forces

variable {s : ClauseStore n} {base : List (Lit n)} {l : Lit n}

/-- What is forced holds wherever the clauses and the base hold. -/
theorem holds {σ : Valuation} (h : s.Forces base l)
    (clauses : ∀ i c, s.Has i c → Lit.AnyHolds σ c.lits) (facts : ∀ l ∈ base, l.Holds σ) :
    l.Holds σ := by
  induction h with
  | given mem => exact facts _ mem
  | @unit i c l has mem others ih =>
    obtain ⟨m, hm, true⟩ := clauses i c has
    by_cases same : m = l
    · exact same ▸ true
    · exact absurd true ((Lit.holds_neg_iff σ m).1 (ih m hm same))

/-- Nothing is forced out of the blue. -/
theorem mem (h : s.Forces base l) : l ∈ base ∨ ∃ i c, s.Has i c ∧ l ∈ c.lits := by
  cases h with
  | given mem => exact .inl mem
  | unit has mem others => exact .inr ⟨_, _, has, mem⟩

theorem of_matches {s' : ClauseStore n} (same : s.Matches Clause.Reordered s')
    (h : s'.Forces base l) : s.Forces base l := by
  induction h with
  | given mem => exact .given mem
  | unit has mem others ih =>
    obtain ⟨c, hc, perm, -⟩ := same.has_of has
    exact .unit hc (perm.mem_iff.1 mem) fun m hm => ih m (perm.mem_iff.2 hm)

theorem trans {base' : List (Lit n)} (all : ∀ m ∈ base', s.Forces base m)
    (h : s.Forces base' l) : s.Forces base l := by
  induction h with
  | given mem => exact all _ mem
  | unit has mem others ih => exact .unit has mem ih

end Forces

end ClauseStore

namespace Propagator

variable {n : Nat}

/-- The second propagator differs from the first by propagation. -/
structure Extends (p p' : Propagator n) : Prop where
  store : p.store.Matches Clause.Reordered p'.store
  starts : p'.trail.starts = p.trail.starts
  lits : p.trail.lits.toList <+: p'.trail.lits.toList
  forced : ∀ l ∈ p'.trail.lits.toList, p.store.Forces p.trail.lits.toList l
  consistent : p'.consistent = p.consistent

namespace Extends

variable {p p' p'' : Propagator n}

theorem of_trail_eq (store : p.store.Matches Clause.Reordered p'.store)
    (trail : p'.trail = p.trail) (consistent : p'.consistent = p.consistent) : p.Extends p' where
  store := store
  starts := by rw [trail]
  lits := by rw [trail]
  forced := by
    rw [trail]
    exact fun l hl => .given hl
  consistent := consistent

theorem refl (p : Propagator n) : p.Extends p :=
  .of_trail_eq (.refl Clause.Reordered.refl _) rfl rfl

theorem trans (h : p.Extends p') (h' : p'.Extends p'') : p.Extends p'' where
  store := h.store.trans Clause.Reordered.trans h'.store
  starts := h'.starts.trans h.starts
  lits := h.lits.trans h'.lits
  forced := fun l hl => ((h'.forced l hl).of_matches h.store).trans h.forced
  consistent := h'.consistent.trans h.consistent

theorem position (h : p.Extends p') {i : Nat} {l : Lit n} (hi : p.trail.lits[i]? = some l) :
    p'.trail.lits[i]? = some l := by
  rw [← Array.getElem?_toList] at hi ⊢
  obtain ⟨rest, eq⟩ := h.lits
  rw [← eq, List.getElem?_append_left (List.getElem?_eq_some_iff.1 hi).1, hi]

theorem size_le (h : p.Extends p') : p.trail.size ≤ p'.trail.size := by
  have := h.lits.length_le
  simpa [Trail.size] using this

theorem level (h : p.Extends p') : p'.trail.level = p.trail.level := by
  rw [Trail.level, h.starts, Trail.level]

/-- What was true stays true, at its depth. -/
theorem eval_of_true (h : p.Extends p') (wf : p.trail.WellFormed) (wf' : p'.trail.WellFormed)
    {l : Lit n} (holds : p.trail.eval l = some true) : p'.trail.eval l = some true := by
  obtain ⟨i, hi⟩ := (wf.eval_eq_true_iff l).1 holds
  exact wf'.eval_of_position (h.position hi)

end Extends

end Propagator

end IncrementalSat
