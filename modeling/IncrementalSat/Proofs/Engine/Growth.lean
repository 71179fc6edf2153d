import IncrementalSat.Proofs.Engine.Representation
import IncrementalSat.Proofs.Propagator.Growth

/-!
# Allocating a variable in an engine

The engine stands for the same formula afterwards.
-/
namespace IncrementalSat

variable {n : Nat}

namespace Elimination

theorem needsTrue_grow_iff (x : Elimination n) (σ : Valuation) :
    x.grow.NeedsTrue σ ↔ x.NeedsTrue σ := by
  have other : ∀ l : Lit n, l.grow.var ≠ x.grow.var ↔ l.var ≠ x.var := fun l =>
    (Fin.castSucc_injective n).ne_iff
  constructor
  · rintro ⟨c, hc, mem, none⟩
    obtain ⟨d, hd, rfl⟩ := List.mem_map.1 hc
    obtain ⟨m, hm, same⟩ := List.mem_map.1 mem
    have eq : m = ⟨x.var, true⟩ := Lit.grow_injective same
    exact ⟨d, hd, eq ▸ hm, fun l hl different =>
      none l.grow (List.mem_map_of_mem hl) ((other l).2 different)⟩
  · rintro ⟨d, hd, mem, none⟩
    refine ⟨d.map Lit.grow, List.mem_map_of_mem hd, List.mem_map.2 ⟨_, mem, rfl⟩, ?_⟩
    intro l hl different
    obtain ⟨m, hm, rfl⟩ := List.mem_map.1 hl
    exact none m hm ((other m).1 different)

theorem repair_grow (x : Elimination n) (σ : Valuation) : x.grow.repair σ = x.repair σ := by
  funext k
  have same : decide (x.grow.NeedsTrue σ) = decide (x.NeedsTrue σ) := by
    rw [decide_eq_decide]
    exact x.needsTrue_grow_iff σ
  unfold repair
  rw [same]
  rfl

theorem mentions_grow_iff (x : Elimination n) (v : Fin n) :
    x.grow.Mentions v.castSucc ↔ x.Mentions v := by
  constructor
  · rintro (same | ⟨c, hc, l, hl, same⟩)
    · exact .inl (Fin.castSucc_injective n same)
    · obtain ⟨d, hd, rfl⟩ := List.mem_map.1 hc
      obtain ⟨m, hm, rfl⟩ := List.mem_map.1 hl
      exact .inr ⟨d, hd, m, hm, Fin.castSucc_injective n same⟩
  · rintro (rfl | ⟨d, hd, m, hm, rfl⟩)
    · exact .inl rfl
    · exact .inr ⟨d.map Lit.grow, List.mem_map_of_mem hd, m.grow, List.mem_map_of_mem hm, rfl⟩

end Elimination

namespace Engine

variable {e : Engine n} {e' : Engine (n + 1)} {f : Formula}

/-- What an engine is after a variable was allocated. -/
structure Grown (e : Engine n) (decision : Bool) (e' : Engine (n + 1)) : Prop where
  propagator : e'.toPropagator = e.toPropagator.grow
  heap : e'.order.heap.Complete
  seen : e'.seen = e.seen.push false
  eliminations : e'.eliminations = e.eliminations.map Elimination.grow
  eliminated : e'.marks.eliminated = e.marks.eliminated.push false
  decisions : e'.marks.decision = e.marks.decision.push decision
  config : e'.config = e.config

/-- A variable can always be allocated. -/
theorem newVar_spec (h : e.order.heap.Complete) (polarity : Truth) (decision : Bool) :
    Yields (e.newVar polarity decision) (Grown e decision) := by
  obtain ⟨order, grown, heap⟩ := BranchingOrder.complete_grow (o := e.order) h
  unfold newVar
  rw [grown]
  exact Yields.pure ⟨rfl, heap, rfl, rfl, rfl, rfl, rfl⟩

namespace Grown

variable {decision : Bool} (h : Grown e decision e')

include h

theorem isEliminated (v : Fin n) : e'.isEliminated v.castSucc = e.isEliminated v := by
  unfold Engine.isEliminated
  rw [h.eliminated]
  simp

theorem isEliminated_last : e'.isEliminated (Fin.last n) = false := by
  unfold Engine.isEliminated
  rw [h.eliminated]
  simp

theorem restore (σ : Valuation) : e'.restore σ = e.restore σ := by
  unfold Engine.restore
  rw [h.eliminations, List.foldl_map]
  simp only [Elimination.repair_grow]

theorem hygienic (hygienic : e.Hygienic) : e'.Hygienic := by
  refine ⟨?_, ?_, ?_⟩
  · intro v
    rw [h.eliminations]
    refine Fin.lastCases ?_ (fun w => ?_) v
    · rw [h.isEliminated_last]
      simp only [Bool.false_eq_true, false_iff]
      rintro ⟨x, hx, same⟩
      obtain ⟨y, -, rfl⟩ := List.mem_map.1 hx
      exact (Fin.castSucc_lt_last y.var).ne same
    · rw [h.isEliminated, hygienic.marked]
      constructor
      · rintro ⟨x, hx, rfl⟩
        exact ⟨x.grow, List.mem_map_of_mem hx, rfl⟩
      · rintro ⟨x, hx, same⟩
        obtain ⟨y, hy, rfl⟩ := List.mem_map.1 hx
        exact ⟨y, hy, Fin.castSucc_injective n same⟩
  · intro v gone occurs
    rw [h.propagator] at occurs
    obtain ⟨w, old, rfl⟩ := Propagator.occurs_of_grow occurs
    rw [h.isEliminated] at gone
    exact hygienic.absent w gone old
  · rw [h.eliminations, List.pairwise_map]
    exact hygienic.ordered.imp fun apart mentions => apart ((Elimination.mentions_grow_iff ..).1 mentions)

theorem represents (represents : Represents f e) : Represents f e' where
  wellFormed := by
    refine ⟨h.propagator ▸ represents.wellFormed.propagator.grow, h.heap, ?_⟩
    rw [h.seen]
    intro v
    refine Fin.lastCases ?_ (fun w => ?_) v
    · simp
    · simpa using represents.wellFormed.clear w
  root := by rw [h.propagator]; exact represents.root
  done := by
    rw [h.propagator]
    intro consistent
    exact (represents.done consistent).trans e.trail.size_grow.symm
  sound := by
    intro σ holds
    rw [h.propagator]
    exact (e.valid_grow_iff σ).2 (represents.sound σ holds)
  covers := by
    intro consistent σ required
    rw [h.propagator] at consistent required
    rw [h.restore]
    exact represents.covers consistent σ (Propagator.requires_of_grow required)
  traced := by
    intro consistent c hc
    rw [h.propagator] at consistent ⊢
    refine (represents.traced consistent c hc).imp Propagator.Accounts.grow ?_
    rintro ⟨x, hx, d, hd, ⟨l, hl, same⟩, part⟩
    unfold Removes
    rw [h.eliminations]
    refine ⟨x.grow, List.mem_map_of_mem hx, d.map Lit.grow, List.mem_map_of_mem hd, ?_, ?_⟩
    · exact ⟨l.grow, List.mem_map_of_mem hl, congrArg Fin.castSucc same⟩
    · exact List.forall_mem_map.2 part
  refuted := by rw [h.propagator]; exact represents.refuted
  hygienic := h.hygienic represents.hygienic
  allocated := fun c hc l hl => Nat.lt_succ_of_lt (represents.allocated c hc l hl)

end Grown

end Engine

end IncrementalSat
