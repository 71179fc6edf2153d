import IncrementalSat.Proofs.Propagator.Propagation

/-!
# What a propagator says

A propagator states its clauses and the literals that are true at the root level. Learnt clauses
follow from the rest, so a model only has to satisfy the other clauses. A step refines what is
said if it adds nothing but consequences, loses no requirement on models and brings in no variable.
A requirement is never merely implied by others: a problem clause may go only if a literal of it is
fixed, and be replaced only by a part of it.
-/
namespace IncrementalSat

namespace Propagator

variable {n : Nat}

/-- The literal is true at the root level. -/
def Fixes (p : Propagator n) (l : Lit n) : Prop :=
  p.trail.eval l = some true ∧ p.trail.depth l = 0

/-- Every clause and every fixed literal is true. -/
structure Valid (p : Propagator n) (σ : Valuation) : Prop where
  clauses : ∀ i c, p.store.Has i c → Lit.AnyHolds σ c.lits
  facts : ∀ l, p.Fixes l → l.Holds σ

/-- Every problem clause and every fixed literal is true. -/
structure Requires (p : Propagator n) (σ : Valuation) : Prop where
  clauses : ∀ i c, p.store.Has i c → c.learnt = false → Lit.AnyHolds σ c.lits
  facts : ∀ l, p.Fixes l → l.Holds σ

/-- The variable is in a clause or fixed. -/
def Occurs (p : Propagator n) (v : Fin n) : Prop :=
  (∃ i c, p.store.Has i c ∧ ∃ l ∈ c.lits, l.var = v) ∨ ∃ l, p.Fixes l ∧ l.var = v

/-- One of the literals is fixed, or a problem clause has no others. -/
def Secures (p : Propagator n) (ls : List (Lit n)) : Prop :=
  (∃ l ∈ ls, p.Fixes l) ∨ ∃ i c, p.store.Has i c ∧ c.learnt = false ∧ ∀ l ∈ c.lits, l ∈ ls

/-- The second propagator secures every problem clause of the first, and fixes what it fixes. -/
structure Preserves (p p' : Propagator n) : Prop where
  clauses : ∀ i c, p.store.Has i c → c.learnt = false → p'.Secures c.lits
  facts : ∀ l, p.Fixes l → p'.Fixes l

/-- The second propagator says nothing new and requires no less. -/
structure Refines (p p' : Propagator n) : Prop where
  sound : ∀ σ, p.Valid σ → p'.Valid σ
  preserves : p.Preserves p'
  occurs : ∀ v, p'.Occurs v → p.Occurs v

variable {p p' p'' : Propagator n} {σ : Valuation} {ls ms : List (Lit n)}

/-! ## Requirements that are preserved -/

namespace Secures

theorem of_has {i : Nat} {c : Clause n} (hc : p.store.Has i c) (problem : c.learnt = false)
    (sub : ∀ l ∈ c.lits, l ∈ ls) : p.Secures ls := .inr ⟨i, c, hc, problem, sub⟩

theorem mono (h : p.Secures ls) (sub : ∀ l ∈ ls, l ∈ ms) : p.Secures ms := by
  rcases h with ⟨l, hl, fixed⟩ | ⟨i, c, hc, problem, part⟩
  · exact .inl ⟨l, sub l hl, fixed⟩
  · exact .of_has hc problem fun l hl => sub l (part l hl)

theorem holds (h : p.Secures ls) (required : p.Requires σ) : Lit.AnyHolds σ ls := by
  rcases h with ⟨l, hl, fixed⟩ | ⟨i, c, hc, problem, part⟩
  · exact ⟨l, hl, required.facts l fixed⟩
  · exact (required.clauses i c hc problem).mono part

end Secures

namespace Preserves

theorem secures (h : p.Preserves p') (secured : p.Secures ls) : p'.Secures ls := by
  rcases secured with ⟨l, hl, fixed⟩ | ⟨i, c, hc, problem, part⟩
  · exact .inl ⟨l, hl, h.facts l fixed⟩
  · exact (h.clauses i c hc problem).mono part

theorem refl (p : Propagator n) : p.Preserves p where
  clauses := fun _ _ hc problem => .of_has hc problem fun _ hl => hl
  facts := fun _ fixed => fixed

theorem trans (h : p.Preserves p') (h' : p'.Preserves p'') : p.Preserves p'' where
  clauses := fun i c hc problem => h'.secures (h.clauses i c hc problem)
  facts := fun l fixed => h'.facts l (h.facts l fixed)

theorem requires (h : p.Preserves p') (required : p'.Requires σ) : p.Requires σ where
  clauses := fun i c hc problem => (h.clauses i c hc problem).holds required
  facts := fun l fixed => required.facts l (h.facts l fixed)

end Preserves

/-! ## Refinements -/

namespace Refines

theorem complete (h : p.Refines p') (σ : Valuation) (required : p'.Requires σ) : p.Requires σ :=
  h.preserves.requires required

theorem refl (p : Propagator n) : p.Refines p := ⟨fun _ h => h, .refl p, fun _ h => h⟩

theorem trans (h : p.Refines p') (h' : p'.Refines p'') : p.Refines p'' where
  sound := fun σ valid => h'.sound σ (h.sound σ valid)
  preserves := h.preserves.trans h'.preserves
  occurs := fun v occurs => h.occurs v (h'.occurs v occurs)

/-- Only clauses and fixed literals matter. -/
theorem of_fixes_iff (store : p'.store = p.store) (fixes : ∀ l, p'.Fixes l ↔ p.Fixes l) :
    p.Refines p' where
  sound := by
    intro σ h
    refine ⟨?_, fun l hl => h.facts l ((fixes l).1 hl)⟩
    rw [store]
    exact h.clauses
  preserves := by
    refine ⟨fun i c hc problem => ?_, fun l hl => (fixes l).2 hl⟩
    exact .of_has (store ▸ hc) problem fun _ hl => hl
  occurs := by
    rintro v (⟨i, c, hc, l, hl, same⟩ | ⟨l, hl, same⟩)
    · exact .inl ⟨i, c, store ▸ hc, l, hl, same⟩
    · exact .inr ⟨l, (fixes l).1 hl, same⟩

theorem of_matches {s : ClauseStore n} (same : p.store.Matches Clause.Reordered s) :
    p.Refines { p with store := s } where
  sound := by
    intro σ h
    refine ⟨?_, h.facts⟩
    intro i d hd
    obtain ⟨c, hc, perm, -⟩ := same.has_of hd
    exact (Lit.anyHolds_perm perm).2 (h.clauses i c hc)
  preserves := by
    refine ⟨fun i c hc problem => ?_, fun _ hl => hl⟩
    obtain ⟨d, hd, perm, kind⟩ := same.has hc
    exact .of_has hd (kind.trans problem) fun _ => perm.mem_iff.1
  occurs := by
    rintro v (⟨i, d, hd, l, hl, var⟩ | fixed)
    · obtain ⟨c, hc, perm, -⟩ := same.has_of hd
      exact .inl ⟨i, c, hc, l, perm.mem_iff.1 hl, var⟩
    · exact .inr fixed

end Refines

/-! ## Fixed literals -/

theorem fixes_iff (h : p.trail.WellFormed) (l : Lit n) :
    p.Fixes l ↔ ∃ i : Nat, p.trail.lits[i]? = some l ∧ p.trail.levelAt i = 0 := by
  constructor
  · rintro ⟨holds, low⟩
    obtain ⟨i, hi⟩ := (h.eval_eq_true_iff l).1 holds
    exact ⟨i, hi, (h.depth_of_position hi).symm.trans low⟩
  · rintro ⟨i, hi, low⟩
    exact ⟨h.eval_of_position hi, (h.depth_of_position hi).trans low⟩

/-- At the root level every true literal is fixed. -/
theorem fixes_iff_of_root (h : p.trail.WellFormed) (root : p.trail.level = 0) (l : Lit n) :
    p.Fixes l ↔ p.trail.eval l = some true := by
  have := h.depth_le_level l
  exact ⟨fun fixed => fixed.1, fun holds => ⟨holds, by omega⟩⟩

theorem fixes_congr (cells : p'.trail.cells = p.trail.cells) (l : Lit n) :
    p'.Fixes l ↔ p.Fixes l := by
  unfold Fixes Trail.eval Trail.valueOf Trail.depth Trail.levelOf
  rw [cells]

theorem mem_fixed_iff (h : p.trail.WellFormed) (root : p.trail.level = 0) (l : Lit n) :
    l ∈ p.fixed ↔ p.Fixes l := by
  rw [fixes_iff_of_root h root, h.eval_eq_true_iff, fixed, Array.mem_toList_iff,
    Array.mem_iff_getElem?]

theorem fixes_backtrack_iff (h : p.trail.WellFormed) (level : Nat) (l : Lit n) :
    (p.backtrack level).Fixes l ↔ p.Fixes l := by
  change (p.trail.backtrack level).eval l = some true ∧ (p.trail.backtrack level).depth l = 0 ↔ _
  rw [h.eval_backtrack, h.depth_backtrack, Fixes]
  split
  · rfl
  · constructor
    · rintro ⟨holds, -⟩
      cases holds
    · rintro ⟨-, low⟩
      omega

/-- Above the root level nothing gets fixed. -/
theorem fixes_assign_iff (above : p.trail.level ≠ 0) {l : Lit n}
    (fresh : p.trail.eval l = none) (r : Reason) (m : Lit n) :
    (p.assign l r).Fixes m ↔ p.Fixes m := by
  change (p.trail.assign l r).eval m = some true ∧ (p.trail.assign l r).depth m = 0 ↔ _
  rw [Trail.eval_assign, Trail.depth_assign, Fixes]
  split
  · next same =>
    constructor
    · rintro ⟨-, low⟩
      exact absurd low above
    · rintro ⟨holds, -⟩
      exact absurd same (Trail.var_ne_of_eval fresh holds)
  · rfl

theorem WellFormed.assign_root (h : p.WellFormed) (root : p.trail.level = 0) {l : Lit n}
    (fresh : p.trail.eval l = none) (r : Reason) : (p.assign l r).WellFormed := by
  refine h.assign fresh (.fixed ?_ ?_)
  · have := p.trail.levelAt_le_level p.trail.size
    change p.trail.levelAt p.trail.size = 0
    omega
  · rw [Trail.reasonOf_assign, if_pos rfl, if_pos root]

/-- A literal assigned at the root level is fixed, and nothing else changes. -/
theorem fixes_assign_root_iff (h : p.WellFormed) (root : p.trail.level = 0) {l : Lit n}
    (fresh : p.trail.eval l = none) (r : Reason) (m : Lit n) :
    (p.assign l r).Fixes m ↔ m = l ∨ p.Fixes m := by
  have wf := h.assign_root root fresh r
  rw [fixes_iff_of_root wf.trail root, fixes_iff_of_root h.trail root]
  rw [wf.trail.eval_eq_true_iff, h.trail.eval_eq_true_iff]
  constructor
  · rintro ⟨i, hi⟩
    rcases (Trail.position_assign ..).1 hi with old | ⟨-, rfl⟩
    · exact .inr ⟨i, old⟩
    · exact .inl rfl
  · rintro (rfl | ⟨i, hi⟩)
    · exact ⟨p.trail.size, (Trail.position_assign ..).2 (.inr ⟨rfl, rfl⟩)⟩
    · exact ⟨i, (Trail.position_assign ..).2 (.inl hi)⟩

theorem Refines.backtrack (h : p.trail.WellFormed) (level : Nat) : p.Refines (p.backtrack level) :=
  .of_fixes_iff rfl (fixes_backtrack_iff h level)

/-! ## Propagation -/

/-- Propagation keeps fixed literals fixed. -/
theorem Extends.fixes (h : p.Extends p') (wf : p.trail.WellFormed) (wf' : p'.trail.WellFormed)
    {l : Lit n} (fixed : p.Fixes l) : p'.Fixes l := by
  obtain ⟨i, hi, low⟩ := (fixes_iff wf l).1 fixed
  refine (fixes_iff wf' l).2 ⟨i, h.position hi, ?_⟩
  rw [Trail.levelAt, h.starts]
  exact low

/-- Propagation fixes a literal only at the root level, where the literal is forced. -/
theorem Extends.fixes_of (h : p.Extends p') (wf : p.trail.WellFormed) (wf' : p'.trail.WellFormed)
    {l : Lit n} (fixed : p'.Fixes l) : p.Fixes l ∨
      (p.trail.level = 0 ∧ p.store.Forces p.trail.lits.toList l) := by
  obtain ⟨i, hi, low⟩ := (fixes_iff wf' l).1 fixed
  rw [Trail.levelAt, h.starts] at low
  by_cases old : i < p.trail.size
  · left
    obtain ⟨m, hm⟩ : ∃ m, p.trail.lits[i]? = some m := ⟨_, Array.getElem?_eq_getElem old⟩
    rw [h.position hm, Option.some.injEq] at hi
    exact (fixes_iff wf l).2 ⟨i, hi ▸ hm, low⟩
  · right
    have last : p.trail.levelAt i = p.trail.level := wf.levelAt_of_size_le (Nat.not_lt.1 old)
    refine ⟨last.symm.trans low, h.forced l ?_⟩
    exact List.mem_of_getElem? (by rwa [Array.getElem?_toList])

theorem Refines.of_extends (h : p.Extends p') (wf : p.trail.WellFormed)
    (wf' : p'.trail.WellFormed) : p.Refines p' where
  sound := by
    intro σ valid
    have base : p.trail.level = 0 → ∀ l ∈ p.trail.lits.toList, l.Holds σ := by
      intro root l hl
      exact valid.facts l ((mem_fixed_iff wf root l).1 hl)
    constructor
    · intro i d hd
      obtain ⟨c, hc, perm, -⟩ := h.store.has_of hd
      exact (Lit.anyHolds_perm perm).2 (valid.clauses i c hc)
    · intro l hl
      rcases h.fixes_of wf wf' hl with old | ⟨root, forced⟩
      · exact valid.facts l old
      · exact forced.holds valid.clauses (base root)
  preserves := by
    refine ⟨fun i c hc problem => ?_, fun l hl => h.fixes wf wf' hl⟩
    obtain ⟨d, hd, perm, kind⟩ := h.store.has hc
    exact .of_has hd (kind.trans problem) fun _ => perm.mem_iff.1
  occurs := by
    rintro v (⟨i, d, hd, l, hl, same⟩ | ⟨l, hl, same⟩)
    · obtain ⟨c, hc, perm, -⟩ := h.store.has_of hd
      exact .inl ⟨i, c, hc, l, perm.mem_iff.1 hl, same⟩
    · rcases h.fixes_of wf wf' hl with old | ⟨root, forced⟩
      · exact .inr ⟨l, old, same⟩
      · rcases forced.mem with mem | ⟨i, c, hc, mem⟩
        · exact .inr ⟨l, (mem_fixed_iff wf root l).1 mem, same⟩
        · exact .inl ⟨i, c, hc, l, mem, same⟩

/-- A clause that is false at the root level refutes what is said. -/
theorem Conflicting.not_valid {i : Nat} {c : Clause n} (h : p.Conflicting c)
    (wf : p.trail.WellFormed) (root : p.trail.level = 0) (hc : p.store.Has i c) : ¬ p.Valid σ := by
  intro valid
  obtain ⟨l, hl, holds⟩ := valid.clauses i c hc
  have false := (Trail.eval_neg_eq_true_iff ..).2 (h.falsified l hl)
  have fixed := valid.facts l.neg ((fixes_iff_of_root wf root _).2 false)
  exact (Lit.holds_neg_iff σ l).1 fixed holds

end Propagator

end IncrementalSat
