import IncrementalSat.Proofs.Propagator.Cleaning

/-!
# What a search upholds

Nothing that a search does to a propagator touches the sequence of its problem clauses, apart from the
order of literals within a clause, and nothing takes a literal of level zero off the trail.
-/
namespace IncrementalSat

variable {n : Nat}

namespace ClauseStore

/-- The literals of a problem clause. -/
def stated : Option (Clause n) → Option (List (Lit n))
  | none => none
  | some c => if c.learnt then none else some c.lits

@[simp] theorem stated_of_learnt {c : Clause n} (h : c.learnt = true) : stated (some c) = none := by
  simp [stated, h]

/-- Matching slots state the same clause, up to the order of its literals. -/
theorem rel_stated {o o' : Option (Clause n)} (h : Option.Rel Clause.Reordered o o') :
    Option.Rel List.Perm (stated o) (stated o') := by
  cases h with
  | none => exact .none
  | @some c d r =>
    change Option.Rel List.Perm (if c.learnt then none else some c.lits)
      (if d.learnt then none else some d.lits)
    rw [r.2]
    split
    · exact .none
    · exact .some r.1.symm

end ClauseStore

namespace Propagator

open ClauseStore (stated)

variable {p p' p'' : Propagator n}

theorem problemClauses_eq (p : Propagator n) :
    p.problemClauses = p.store.slots.toList.filterMap stated := by
  unfold problemClauses ClauseStore.live
  rw [List.filterMap_filterMap]
  conv_rhs => rw [← List.zipIdx_map_fst 0 p.store.slots.toList, List.filterMap_map]
  apply List.filterMap_congr
  rintro ⟨slot, i⟩ -
  cases slot with
  | none => rfl
  | some c => cases kind : c.learnt <;> simp [stated, kind]

theorem problemClauses_eq_of_clauses (clauses : p'.store.clauses = p.store.clauses) :
    p'.problemClauses = p.problemClauses := by
  have through : ∀ q : Propagator n,
      q.problemClauses = q.store.clauses.filterMap fun c => stated (some c) := by
    intro q
    rw [problemClauses_eq, ClauseStore.clauses, List.filterMap_filterMap]
    apply List.filterMap_congr
    rintro (_ | c) - <;> rfl
  rw [through, through, clauses]

/-- The second propagator has the problem clauses of the first in the same order, and the literals
that the first has at level zero at the same positions. -/
structure Upholds (p p' : Propagator n) : Prop where
  problems : List.Forall₂ List.Perm p.problemClauses p'.problemClauses
  fixed : ∀ (i : Nat) (l : Lit n), p.trail.lits[i]? = some l → p.trail.levelAt i = 0 →
    p'.trail.lits[i]? = some l ∧ p'.trail.levelAt i = 0

private theorem forall₂_perm_trans {as bs cs : List (List (Lit n))}
    (first : List.Forall₂ List.Perm as bs) (second : List.Forall₂ List.Perm bs cs) :
    List.Forall₂ List.Perm as cs := by
  induction first generalizing cs with
  | nil => exact second
  | cons here _ ih =>
    cases second with
    | cons here' rest' => exact .cons (here.trans here') (ih rest')

namespace Upholds

theorem of_problems_eq (problems : p'.problemClauses = p.problemClauses)
    (fixed : ∀ (i : Nat) (l : Lit n), p.trail.lits[i]? = some l → p.trail.levelAt i = 0 →
      p'.trail.lits[i]? = some l ∧ p'.trail.levelAt i = 0) : p.Upholds p' where
  problems := by
    rw [problems]
    exact List.forall₂_same.2 fun c _ => .refl c
  fixed := fixed

theorem refl (p : Propagator n) : p.Upholds p := .of_problems_eq rfl fun _ _ at_i low => ⟨at_i, low⟩

theorem trans (h : p.Upholds p') (h' : p'.Upholds p'') : p.Upholds p'' where
  problems := forall₂_perm_trans h.problems h'.problems
  fixed := by
    intro i l at_i low
    obtain ⟨at_i', low'⟩ := h.fixed i l at_i low
    exact h'.fixed i l at_i' low'

/-! ## The clauses -/

theorem of_clauses_eq (clauses : p'.store.clauses = p.store.clauses) (trail : p'.trail = p.trail) :
    p.Upholds p' := by
  refine .of_problems_eq (problemClauses_eq_of_clauses clauses) ?_
  rw [trail]
  exact fun _ _ at_i low => ⟨at_i, low⟩

theorem of_matches {s : ClauseStore n} (same : p.store.Matches Clause.Reordered s) :
    p.Upholds { p with store := s } where
  problems := by
    rw [problemClauses_eq, problemClauses_eq]
    exact List.rel_filterMap (fun _ _ => ClauseStore.rel_stated) same.slots
  fixed := fun _ _ at_i low => ⟨at_i, low⟩

/-- A learnt clause is no problem clause. -/
theorem attach (p : Propagator n) {c : Clause n} (learnt : c.learnt = true) :
    p.Upholds (p.attach c) := by
  refine .of_problems_eq ?_ fun _ _ at_i low => ⟨at_i, low⟩
  have slots : (p.attach c).store.slots.toList = p.store.slots.toList ++ [some c] := by
    change (p.store.push c).slots.toList = _
    unfold ClauseStore.push
    rw [if_pos learnt, Array.toList_push]
  rw [problemClauses_eq, problemClauses_eq, slots, List.filterMap_append]
  simp [learnt]

/-- What was removed, a learnt clause, states as little as the hole it leaves. -/
theorem stated_of_without {is : List Nat} (h : p.Without is p')
    (learnt : ∀ i ∈ is, ∀ c, p.store.Has i c → c.learnt = true) (i : Nat) :
    (p'.store.slots[i]?).map stated = (p.store.slots[i]?).map stated := by
  by_cases inside : i < p.store.slots.size
  · have inside' : i < p'.store.slots.size := Nat.lt_of_lt_of_eq inside h.size.symm
    have has := h.has i
    have gone := learnt i
    simp only [ClauseStore.Has, Array.getElem?_eq_getElem inside,
      Array.getElem?_eq_getElem inside', Option.some.injEq] at has gone
    rw [Array.getElem?_eq_getElem inside, Array.getElem?_eq_getElem inside']
    refine congrArg some ?_
    cases new : p'.store.slots[i] with
    | some c => rw [((has c).1 new).2]
    | none =>
      cases old : p.store.slots[i] with
      | none => rfl
      | some c =>
        have removed : i ∈ is := by
          by_contra stays
          cases new.symm.trans ((has c).2 ⟨stays, old⟩)
        exact (ClauseStore.stated_of_learnt (gone removed c old)).symm
  · have outside' : ¬ i < p'.store.slots.size := fun lt => inside (Nat.lt_of_lt_of_eq lt h.size)
    rw [Array.getElem?_eq_none (Nat.not_lt.1 inside), Array.getElem?_eq_none (Nat.not_lt.1 outside')]

/-- Removing learnt clauses leaves every problem clause at its index. -/
theorem of_without {is : List Nat} (h : p.Without is p')
    (learnt : ∀ i ∈ is, ∀ c, p.store.Has i c → c.learnt = true) : p.Upholds p' := by
  have trail : p'.trail = p.trail := by rw [h.frame]
  have slots : p'.store.slots.toList.map stated = p.store.slots.toList.map stated := by
    apply List.ext_getElem?
    intro i
    simpa using stated_of_without h learnt i
  have through : ∀ q : Propagator n,
      q.problemClauses = (q.store.slots.toList.map stated).filterMap id := by
    intro q
    rw [problemClauses_eq, List.filterMap_map]
    rfl
  refine .of_problems_eq ?_ (by rw [trail]; exact fun _ _ at_i low => ⟨at_i, low⟩)
  rw [through, through, slots]

/-! ## The trail -/

theorem assign (p : Propagator n) (l : Lit n) (r : Reason) : p.Upholds (p.assign l r) :=
  .of_problems_eq rfl fun _ _ at_i low => ⟨(Trail.position_assign ..).2 (.inl at_i), low⟩

theorem openLevel (p : Propagator n) : p.Upholds { p with trail := p.trail.openLevel } := by
  refine .of_problems_eq rfl fun i l at_i low => ⟨at_i, ?_⟩
  have inside : i < p.trail.size := (Array.getElem?_eq_some_iff.1 at_i).1
  exact (p.trail.levelAt_openLevel inside).trans low

theorem backtrack (wf : p.trail.WellFormed) (level : Nat) : p.Upholds (p.backtrack level) := by
  refine .of_problems_eq rfl fun i l at_i low => ?_
  have depth := wf.depth_of_position at_i
  have stays : p.trail.levelAt i ≤ level := low ▸ Nat.zero_le level
  exact ⟨(wf.position_backtrack level i l).2 ⟨at_i, depth.trans_le stays⟩,
    (wf.levelAt_backtrack stays).trans low⟩

theorem of_extends (h : p.Extends p') : p.Upholds p' where
  problems := (of_matches h.store).problems
  fixed := by
    intro i l at_i low
    refine ⟨h.position at_i, ?_⟩
    rw [Trail.levelAt, h.starts]
    exact low

theorem fixes (h : p.Upholds p') (wf : p.trail.WellFormed) (wf' : p'.trail.WellFormed) {l : Lit n}
    (fixed : p.Fixes l) : p'.Fixes l := by
  obtain ⟨i, at_i, low⟩ := (fixes_iff wf l).1 fixed
  exact (fixes_iff wf' l).2 ⟨i, h.fixed i l at_i low⟩

/-- At level zero the fixed literals are the whole trail. -/
theorem fixed_prefix (h : p.Upholds p') (root : p.trail.level = 0) : p.fixed <+: p'.fixed := by
  rw [List.prefix_iff_getElem?]
  intro i hi
  have at_i : p.trail.lits[i]? = some p.fixed[i] := by
    rw [← Array.getElem?_toList]
    exact List.getElem?_eq_getElem hi
  have low := p.trail.levelAt_le_level i
  rw [Propagator.fixed, Array.getElem?_toList]
  exact (h.fixed i _ at_i (by omega)).1

end Upholds

end Propagator

end IncrementalSat
