import IncrementalSat.Proofs.Propagator.Addition

/-!
# Allocating a variable

A new variable has no value and is in no clause. All else is what it was, under the same names.
-/
namespace IncrementalSat

variable {n : Nat}

namespace Lit

/-- A literal is an old one or over the new variable. -/
theorem eq_grow_or_last (l : Lit (n + 1)) : (∃ m : Lit n, l = m.grow) ∨ l.var = Fin.last n := by
  obtain ⟨v, sign⟩ := l
  refine Fin.lastCases (.inr rfl) (fun w => .inl ⟨⟨w, sign⟩, rfl⟩) v

theorem grow_var_ne_last (l : Lit n) : l.grow.var ≠ Fin.last n := (Fin.castSucc_lt_last l.var).ne

theorem anyHolds_grow_iff (σ : Valuation) (ls : List (Lit n)) :
    AnyHolds σ (ls.map grow) ↔ AnyHolds σ ls := by
  constructor
  · rintro ⟨l, hl, holds⟩
    obtain ⟨m, hm, rfl⟩ := List.mem_map.1 hl
    exact ⟨m, hm, holds⟩
  · rintro ⟨m, hm, holds⟩
    exact ⟨m.grow, List.mem_map_of_mem hm, holds⟩

end Lit

/-! ## Clauses -/

theorem Clause.lits_grow (c : Clause n) : c.grow.lits = c.lits.map Lit.grow := rfl

theorem Clause.mem_lits_grow_iff (c : Clause n) (l : Lit (n + 1)) :
    l ∈ c.grow.lits ↔ ∃ m ∈ c.lits, m.grow = l := by
  rw [lits_grow, List.mem_map]

theorem Clause.watches_grow_iff (c : Clause n) (l : Lit n) :
    c.grow.Watches l.grow ↔ c.Watches l := by
  have eq : ∀ m : Lit n, l.grow = m.grow ↔ l = m := fun m =>
    ⟨Lit.grow_injective, fun h => congrArg Lit.grow h⟩
  exact or_congr (eq c.first) (eq c.second)

namespace ClauseStore

theorem has_grow_iff (s : ClauseStore n) (i : Nat) (d : Clause (n + 1)) :
    s.grow.Has i d ↔ ∃ c, s.Has i c ∧ c.grow = d := by
  unfold Has grow
  rw [Array.getElem?_map, Option.map_eq_some_iff]
  constructor
  · rintro ⟨slot, hs, eq⟩
    obtain ⟨c, rfl, same⟩ := Option.map_eq_some_iff.1 eq
    exact ⟨c, hs, same⟩
  · rintro ⟨c, hc, rfl⟩
    exact ⟨some c, hc, rfl⟩

theorem size_grow (s : ClauseStore n) : s.grow.size = s.size := Array.size_map

theorem live_grow (s : ClauseStore n) : s.grow.live = s.live.map fun x => (x.1, x.2.grow) := by
  unfold live grow
  rw [Array.toList_map, List.zipIdx_map, List.filterMap_map, List.map_filterMap]
  apply List.filterMap_congr
  intro (slot, i) _
  cases slot <;> rfl

theorem WellFormed.grow {s : ClauseStore n} (h : s.WellFormed) : s.grow.WellFormed where
  distinct := by
    intro i d hd
    obtain ⟨c, hc, rfl⟩ := (s.has_grow_iff i d).1 hd
    have casted : c.grow.lits.map (·.var) = (c.lits.map (·.var)).map Fin.castSucc := by
      rw [Clause.lits_grow, List.map_map, List.map_map]
      rfl
    rw [casted]
    exact (h.distinct i c hc).map (Fin.castSucc_injective n)
  problems := by
    change s.problems = (s.slots.map _).countP _
    rw [h.problems, Array.countP_map]
    congr 1
    funext o
    cases o <;> rfl
  learnts := by
    change s.learnts = (s.slots.map _).countP _
    rw [h.learnts, Array.countP_map]
    congr 1
    funext o
    cases o <;> rfl
  holes := by
    change s.holes = (s.slots.map _).countP _
    rw [h.holes, Array.countP_map]
    congr 1
    funext o
    cases o <;> rfl

end ClauseStore

/-! ## Watch lists -/

theorem LitMap.get_grow {α : Type} (m : LitMap n α) (a : α) (l : Lit n) :
    (m.grow a).get l.grow = m.get l := by
  obtain ⟨v, sign⟩ := l
  cases sign <;> simp [LitMap.get, LitMap.grow, Lit.grow]

theorem LitMap.get_grow_last {α : Type} (m : LitMap n α) (a : α) {l : Lit (n + 1)}
    (last : l.var = Fin.last n) : (m.grow a).get l = a := by
  obtain ⟨v, sign⟩ := l
  cases last
  cases sign <;> simp [LitMap.get, LitMap.grow]

/-! ## The propagator -/

namespace Propagator

variable {p : Propagator n}

theorem justified_grow {i : Nat} {l : Lit n} (h : p.trail.Justified p.store i l) :
    p.trail.grow.Justified p.store.grow i l.grow := by
  have reasonOf := p.trail.reasonOf_grow l.var
  cases h with
  | fixed root reason => exact .fixed root (reasonOf.trans reason)
  | decided above reason start => exact .decided above (reasonOf.trans reason) start
  | implied above j c reason has first others =>
    refine .implied above j c.grow (reasonOf.trans reason) ((p.store.has_grow_iff ..).2 ⟨c, has, rfl⟩)
      (congrArg Lit.grow first) ?_
    intro m hm different
    obtain ⟨k, hk, rfl⟩ := (c.mem_lits_grow_iff m).1 hm
    obtain ⟨q, hq, at_q⟩ := others k hk fun same => different (congrArg Lit.grow same)
    exact ⟨q, hq, (p.trail.position_grow_grow q k.neg).2 at_q⟩

theorem Linked.grow (h : p.Linked) : p.grow.Linked where
  trail := h.trail.grow
  store := h.store.grow
  justified := by
    intro i l hi
    obtain ⟨m, hm, rfl⟩ := (p.trail.position_grow i l).1 hi
    exact justified_grow (h.justified i m hm)
  listed := by
    intro i d hd l
    obtain ⟨c, hc, rfl⟩ := (p.store.has_grow_iff i d).1 hd
    change ((p.watches.grow #[]).get l).count i = _
    rcases l.eq_grow_or_last with ⟨m, rfl⟩ | last
    · rw [LitMap.get_grow, h.listed i c hc]
      simp only [c.watches_grow_iff]
    · rw [LitMap.get_grow_last _ _ last, if_neg]
      · simp
      · rintro (rfl | rfl)
        · exact c.first.grow_var_ne_last last
        · exact c.second.grow_var_ne_last last
  inRange := by
    intro l i hi
    change i ∈ (p.watches.grow #[]).get l at hi
    change i < p.store.grow.size
    rw [p.store.size_grow]
    rcases l.eq_grow_or_last with ⟨m, rfl⟩ | last
    · rw [LitMap.get_grow] at hi
      exact h.inRange m i hi
    · rw [LitMap.get_grow_last _ _ last] at hi
      simp at hi
  head_le := by
    change p.head ≤ p.trail.grow.size
    rw [Trail.size_grow]
    exact h.head_le
  current := by
    intro i late short
    change i < p.trail.grow.size at short
    rw [Trail.size_grow] at short
    exact h.current i late short

theorem WellFormed.grow (h : p.WellFormed) : p.grow.WellFormed where
  toLinked := h.toLinked.grow
  served := by
    intro i d hd w hw k hk at_k
    obtain ⟨c, hc, rfl⟩ := (p.store.has_grow_iff i d).1 hd
    obtain ⟨m, rfl⟩ : ∃ m : Lit n, w = m.grow := by
      rcases hw with rfl | rfl
      · exact ⟨c.first, rfl⟩
      · exact ⟨c.second, rfl⟩
    obtain ⟨l, hl, holds, low⟩ := h.served i c hc m ((c.watches_grow_iff m).1 hw) k hk
      ((p.trail.position_grow_grow k m.neg).1 at_k)
    refine ⟨l.grow, List.mem_map_of_mem hl, (p.trail.eval_grow l).trans holds, ?_⟩
    change p.trail.grow.depth l.grow ≤ p.trail.grow.depth m.grow
    rwa [Trail.depth_grow, Trail.depth_grow]

/-! ## What is said -/

theorem fixes_grow_iff (p : Propagator n) (l : Lit (n + 1)) :
    p.grow.Fixes l ↔ ∃ m : Lit n, p.Fixes m ∧ m.grow = l := by
  constructor
  · rintro ⟨holds, low⟩
    rcases l.eq_grow_or_last with ⟨m, rfl⟩ | last
    · exact ⟨m, ⟨(p.trail.eval_grow m).symm.trans holds, (p.trail.depth_grow m).symm.trans low⟩, rfl⟩
    · unfold Trail.eval Trail.valueOf at holds
      rw [last] at holds
      change ((p.trail.grow.cells.get (Fin.last n)).map _).map _ = _ at holds
      rw [Trail.cells_grow_last] at holds
      cases holds
  · rintro ⟨m, ⟨holds, low⟩, rfl⟩
    exact ⟨(p.trail.eval_grow m).trans holds, (p.trail.depth_grow m).trans low⟩

theorem valid_grow_iff (p : Propagator n) (σ : Valuation) : p.grow.Valid σ ↔ p.Valid σ := by
  constructor
  · intro h
    refine ⟨fun i c hc => ?_, fun l hl => h.facts l.grow ((p.fixes_grow_iff _).2 ⟨l, hl, rfl⟩)⟩
    exact (Lit.anyHolds_grow_iff σ c.lits).1
      (h.clauses i c.grow ((p.store.has_grow_iff ..).2 ⟨c, hc, rfl⟩))
  · intro h
    refine ⟨fun i d hd => ?_, fun l hl => ?_⟩
    · obtain ⟨c, hc, rfl⟩ := (p.store.has_grow_iff i d).1 hd
      exact (Lit.anyHolds_grow_iff σ c.lits).2 (h.clauses i c hc)
    · obtain ⟨m, hm, rfl⟩ := (p.fixes_grow_iff l).1 hl
      exact h.facts m hm

theorem requires_of_grow {σ : Valuation} (h : p.grow.Requires σ) : p.Requires σ where
  clauses := fun i c hc problem => (Lit.anyHolds_grow_iff σ c.lits).1
    (h.clauses i c.grow ((p.store.has_grow_iff ..).2 ⟨c, hc, rfl⟩) problem)
  facts := fun l hl => h.facts l.grow ((p.fixes_grow_iff _).2 ⟨l, hl, rfl⟩)

theorem Accounts.grow {lits : List (Literal Nat)} (h : p.Accounts lits) : p.grow.Accounts lits := by
  rcases h with opposite | ⟨ls, part, secured⟩
  · exact .inl opposite
  · refine .inr ⟨ls.map Lit.grow, List.forall_mem_map.2 part, ?_⟩
    rcases secured with ⟨l, hl, fixed⟩ | ⟨i, c, hc, problem, sub⟩
    · exact .inl ⟨l.grow, List.mem_map_of_mem hl, (p.fixes_grow_iff _).2 ⟨l, fixed, rfl⟩⟩
    · refine .of_has ((p.store.has_grow_iff ..).2 ⟨c, hc, rfl⟩) problem ?_
      rw [c.lits_grow, List.forall_mem_map]
      exact fun l hl => List.mem_map_of_mem (sub l hl)

theorem occurs_of_grow {v : Fin (n + 1)} (h : p.grow.Occurs v) :
    ∃ w : Fin n, p.Occurs w ∧ w.castSucc = v := by
  rcases h with ⟨i, d, hd, l, hl, rfl⟩ | ⟨l, hl, rfl⟩
  · obtain ⟨c, hc, rfl⟩ := (p.store.has_grow_iff i d).1 hd
    obtain ⟨m, hm, rfl⟩ := (c.mem_lits_grow_iff l).1 hl
    exact ⟨m.var, .inl ⟨i, c, hc, m, hm, rfl⟩, rfl⟩
  · obtain ⟨m, hm, rfl⟩ := (p.fixes_grow_iff l).1 hl
    exact ⟨m.var, .inr ⟨m, hm, rfl⟩, rfl⟩

end Propagator

end IncrementalSat
