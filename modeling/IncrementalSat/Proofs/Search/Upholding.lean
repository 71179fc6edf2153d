import IncrementalSat.Proofs.Engine.Course
import IncrementalSat.Proofs.Propagator.Upholding

/-!
# What every step of a search upholds

A search learns clauses and drops learnt ones, jumps back and restarts; the problem clauses and the
literals at level zero outlast each of its steps, and so the whole search, wherever it ends.
-/
namespace IncrementalSat

namespace Propagator

variable {n : Nat} {p : Propagator n} {b : Backjump n}

/-- The clause that is learnt is stored behind all others, and marked as learnt. -/
theorem upholds_learn (wf : p.WellFormed) : Yields (p.learn b) p.Upholds := by
  have back := Upholds.backtrack wf.trail b.level
  unfold learn
  rw [wf.retreat]
  cases b.others with
  | nil => exact Yields.pure (back.trans (.assign _ b.asserting .root))
  | cons second rest =>
    set c : Clause n := { first := b.asserting, second, rest, learnt := true } with c_eq
    have has : ((p.backtrack b.level).attach c).store.Has p.store.size c :=
      (p.store.has_push_iff ..).2 (.inr ⟨rfl, rfl⟩)
    have attached := back.trans (.attach (p.backtrack b.level) (c := c) rfl)
    refine has.touch.bind ?_
    intro s same
    have reordered := same.mono fun _ _ r => r.reordered
    have touched := attached.trans (.of_matches reordered)
    exact Yields.pure (touched.trans (.assign _ b.asserting (.clause p.store.size)))

theorem upholds_reduceLearnts (wf : p.WellFormed) : Yields p.reduceLearnts p.Upholds :=
  (without_reduceLearnts wf).mono fun _ ⟨_, without, learnt⟩ => .of_without without learnt

/-- The levels that are opened for assumptions are empty. -/
theorem upholds_openAssumed (as : List (Literal Nat)) (p : Propagator n)
    (allocated : ∀ a ∈ as, a.var < n) :
    Yields (openAssumed as p) fun (_, p') => p.Upholds p' := by
  induction as generalizing p with
  | nil => exact Yields.ok (.refl p)
  | cons a as ih =>
    obtain ⟨here, rest⟩ := List.forall_mem_cons.1 allocated
    obtain ⟨l, found, rfl⟩ := Lit.lookup_of_lt here
    rw [openAssumed, found]
    dsimp only [bind, Except.bind]
    cases p.trail.eval l with
    | none => exact Yields.pure (.refl p)
    | some b =>
      cases b with
      | false => exact Yields.pure (.refl p)
      | true => exact (ih _ rest).mono fun _ later => (Upholds.openLevel p).trans later

end Propagator

namespace Engine

variable {n : Nat} {start e last : Engine n} {as : List (Literal Nat)} {restartDue : Bool}

/-- Only the propagator matters. -/
theorem upholds_propagating {α : Type} {f : Propagator n → Checked (α × Propagator n)}
    (h : Yields (f e.toPropagator) fun (_, p) => e.toPropagator.Upholds p) :
    Yields (e.propagating f) fun (_, e') => e.toPropagator.Upholds e'.toPropagator :=
  h.bind fun _ upholds => Yields.pure upholds

namespace Searching

/-! ## Conflicts -/

theorem upholds_propagate (h : Searching start as e) : Yields (e.propagating (·.propagate))
    fun (_, e') => e.toPropagator.Upholds e'.toPropagator :=
  upholds_propagating ((Propagator.propagate_spec h.wellFormed.propagator).mono
    fun _ ⟨step, _⟩ => .of_extends step)

/-- The analysis rates clauses anew, and learning adds one to them. -/
theorem upholds_learnFrom (h : Searching start as e) (above : e.trail.level ≠ 0) {i : Nat}
    {c : Clause n} (hc : e.store.Has i c) (conflicting : e.Conflicting c) :
    Yields (e.learnFrom i) fun e' => e.toPropagator.Upholds e'.toPropagator := by
  have wf := h.wellFormed.propagator
  unfold Engine.learnFrom
  refine (Analysis.run_spec wf.toLinked above hc conflicting e.order e.seen h.wellFormed.heap
    h.wellFormed.clear).bind ?_
  rintro ⟨b, a⟩ ⟨-, rated, -⟩
  refine (Propagator.upholds_learn (wf.of_matches rated)).bind ?_
  intro p learnt
  have reordered : e.store.Matches Clause.Reordered a.store := rated.mono fun _ _ r => r.reordered
  exact Yields.pure ((Propagator.Upholds.of_matches reordered).trans learnt)

theorem upholds_resolveConflict (h : Searching start as e) {i : Nat} {c : Clause n}
    (hc : e.store.Has i c) (conflicting : e.Conflicting c) :
    Yields (e.resolveConflict restartDue i) fun (_, e') =>
      e.toPropagator.Upholds e'.toPropagator := by
  have counted : Searching start as e.countConflict :=
    h.of_eq rfl rfl h.wellFormed.heap rfl ⟨rfl, rfl, rfl, rfl, rfl⟩
  unfold Engine.resolveConflict
  dsimp only
  split
  · exact Yields.pure (.of_clauses_eq rfl rfl)
  · next above =>
    refine (counted.upholds_learnFrom above hc conflicting).bind ?_
    exact fun _ learnt => Yields.pure learnt

/-! ## Restarts and decisions -/

theorem upholds_restart (h : Searching start as e) : Yields e.restart fun e' =>
    e.toPropagator.Upholds e'.toPropagator := by
  have wf := h.wellFormed.propagator
  unfold Engine.restart Engine.retreat
  rw [wf.retreat]
  exact Yields.pure (.backtrack wf.trail 0)

theorem upholds_trimLearnts (h : Searching start as e) : Yields e.trimLearnts fun e' =>
    e.toPropagator.Upholds e'.toPropagator := by
  unfold Engine.trimLearnts
  split
  · refine (Propagator.upholds_reduceLearnts h.wellFormed.propagator).bind ?_
    exact fun _ upholds => Yields.pure upholds
  · exact Yields.ok (.refl _)

theorem upholds_decideOn (e : Engine n) (l : Lit n) :
    e.toPropagator.Upholds (e.decideOn l).toPropagator :=
  (Propagator.Upholds.openLevel _).trans (.assign _ l .decision)

theorem upholds_branch (allocated : ∀ a ∈ as, a.var < n) :
    Yields (e.branch as) fun (_, e') => e.toPropagator.Upholds e'.toPropagator := by
  have rest : ∀ a ∈ as.drop e.trail.level, a.var < n := fun a ha =>
    allocated a (List.mem_of_mem_drop ha)
  unfold Engine.branch
  refine (upholds_propagating (Propagator.upholds_openAssumed _ e.toPropagator rest)).bind ?_
  rintro ⟨request, e'⟩ upholds
  cases request with
  | refused => exact Yields.pure upholds
  | wanted l => exact Yields.pure (upholds.trans (upholds_decideOn e' l))
  | settled =>
    have same : e'.pickBranch.2.toPropagator = e'.toPropagator := rfl
    dsimp only
    cases choice : e'.pickBranch with
    | mk l e'' =>
      rw [choice] at same
      have picked : e.toPropagator.Upholds e''.toPropagator := same ▸ upholds
      cases l with
      | none => exact Yields.pure picked
      | some l => exact Yields.pure (picked.trans (upholds_decideOn e'' l))

end Searching

/-! ## Steps -/

theorem searchStep_upholds (h : Searching start as e) (allocated : ∀ a ∈ as, a.var < n)
    (restartDue : Bool) : Yields (searchStep as restartDue e) fun (_, e') =>
      e.toPropagator.Upholds e'.toPropagator := by
  unfold searchStep
  refine (h.propagate.and h.upholds_propagate).bind ?_
  rintro ⟨conflict, e'⟩ ⟨⟨searching, -, -, answer⟩, upholds⟩
  cases conflict with
  | some i =>
    obtain ⟨c, hc, conflicting⟩ := answer
    exact (searching.upholds_resolveConflict hc conflicting).mono fun _ => upholds.trans
  | none =>
    dsimp only
    split
    · refine searching.upholds_restart.bind ?_
      exact fun _ restarted => Yields.pure (upholds.trans restarted)
    · refine (searching.trimLearnts.and searching.upholds_trimLearnts).bind ?_
      rintro e'' ⟨-, trimmed⟩
      exact (Searching.upholds_branch allocated).mono fun _ => (upholds.trans trimmed).trans

/-- Along a search, what it began with is upheld. -/
theorem Reaches.upholds (reached : Reaches as start restartDue e) (begun : Searching start as start)
    (allocated : ∀ a ∈ as, a.var < n) : start.toPropagator.Upholds e.toPropagator := by
  induction reached with
  | start => exact .refl _
  | next before step ih =>
    exact ih.trans ((searchStep_upholds (before.searching begun allocated) allocated _).of_eq step)

/-- Wherever a search ends, what it began with is upheld. -/
theorem upholds_of_search {verdict : Verdict} (begun : Searching start as start)
    (allocated : ∀ a ∈ as, a.var < n) (searched : start.search as = .ok (verdict, last)) :
    start.toPropagator.Upholds last.toPropagator := by
  obtain ⟨due, e, reached, step⟩ := exists_last_of_search searched
  have along := reached.upholds begun allocated
  exact along.trans ((searchStep_upholds (reached.searching begun allocated) allocated due).of_eq step)

end Engine

end IncrementalSat
