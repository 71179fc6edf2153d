import IncrementalSat.Proofs.Engine.Projection
import IncrementalSat.Proofs.Engine.Retention
import IncrementalSat.Proofs.Search.Upholding

/-!
# Assumptions are transient

A solve that eliminates nothing only adds to what is fixed, and only what follows from the formula.
So it poses the same problem afterwards as before, whatever was assumed and wherever the search ended.
-/
namespace IncrementalSat

variable {n : Nat}

namespace Propagator

variable {p p' : Propagator n} {σ : Valuation}

/-- The order of literals within clauses does not matter. -/
theorem anyHolds_iff_of_forall₂ {cs ds : List (List (Lit n))} (h : List.Forall₂ List.Perm cs ds) :
    (∀ c ∈ cs, Lit.AnyHolds σ c) ↔ ∀ d ∈ ds, Lit.AnyHolds σ d := by
  induction h with
  | nil => simp
  | cons perm _ ih => rw [List.forall_mem_cons, List.forall_mem_cons, ih, Lit.anyHolds_perm perm]

/-- What is upheld is still required. -/
theorem Upholds.requires (h : p.Upholds p') (wf : p.trail.WellFormed) (wf' : p'.trail.WellFormed)
    (required : p'.Requires σ) : p.Requires σ where
  clauses := by
    intro i c hc problem
    have mem : c.lits ∈ p.problemClauses := (mem_problemClauses_iff p _).2 ⟨i, c, hc, problem, rfl⟩
    refine (anyHolds_iff_of_forall₂ h.problems).2 (fun d hd => ?_) c.lits mem
    obtain ⟨j, d, hj, problem', rfl⟩ := (mem_problemClauses_iff p' d).1 hd
    exact required.clauses j d hj problem'
  facts := fun l fixed => required.facts l (h.fixes wf wf' fixed)

/-- What is upheld is all that is required, but for literals fixed since. -/
theorem Upholds.requires_of_fixes (h : p.Upholds p') (required : p.Requires σ)
    (facts : ∀ l, p'.Fixes l → l.Holds σ) : p'.Requires σ where
  clauses := by
    intro i c hc problem
    have mem : c.lits ∈ p'.problemClauses := (mem_problemClauses_iff p' _).2 ⟨i, c, hc, problem, rfl⟩
    refine (anyHolds_iff_of_forall₂ h.problems).1 (fun d hd => ?_) c.lits mem
    obtain ⟨j, d, hj, problem', rfl⟩ := (mem_problemClauses_iff p d).1 hd
    exact required.clauses j d hj problem'
  facts := facts

end Propagator

namespace Engine

variable {e e' : Engine n} {f : Formula} {as : List (Literal Nat)} {turnOff sat : Bool}

/-- The valuation solves the problem that the engine poses to searches. -/
def Admits (e : Engine n) (σ : Valuation) : Prop := e.consistent = true ∧ e.Requires σ

/-- The second engine is the first one after a solve that left no trace of what it assumed. -/
structure Traceless (f : Formula) (e e' : Engine n) : Prop where
  problems : List.Forall₂ List.Perm e.problemClauses e'.problemClauses
  marks : e'.marks = e.marks
  eliminations : e'.eliminations = e.eliminations
  fixed : e.fixed <+: e'.fixed
  entailed : ∀ l ∈ e'.fixed, ∀ σ, f.Holds σ → l.Holds σ
  root : e'.trail.level = 0
  propagated : e'.consistent = true → e'.head = e'.trail.size ∧
    e'.propagate = .ok (none, e'.toPropagator)
  admits : ∀ σ, e'.Admits σ ↔ e.Admits σ

/-- Engines that stand for the same formula with the same eliminations pose the same problem, if what
the first one requires the second one does. -/
theorem Represents.admits_iff (h : Represents f e) (h' : Represents f e')
    (eliminations : e'.eliminations = e.eliminations)
    (upholds : e.toPropagator.Upholds e'.toPropagator)
    (still : e'.consistent = true → e.consistent = true) (σ : Valuation) :
    e'.Admits σ ↔ e.Admits σ := by
  have wf := h.wellFormed.propagator.trail
  have wf' := h'.wellFormed.propagator.trail
  constructor
  · rintro ⟨consistent, required⟩
    exact ⟨still consistent, upholds.requires wf wf' required⟩
  · rintro ⟨consistent, required⟩
    have holds := h.covers consistent σ required
    have kept : e'.consistent = true := by
      by_contra gone
      exact h'.refuted (Bool.eq_false_of_not_eq_true gone) _ holds
    refine ⟨kept, upholds.requires_of_fixes required fun l fixed => ?_⟩
    -- The variable of a fixed literal was not eliminated, so undoing the eliminations spares it.
    have free : ∀ x ∈ e.eliminations, x.var.val ≠ l.toLiteral.var := by
      intro x hx same
      rw [← eliminations] at hx
      have gone := (h'.hygienic.marked l.var).2 ⟨x, hx, Fin.ext same⟩
      exact h'.hygienic.absent l.var gone (.inr ⟨l, fixed, rfl⟩)
    rw [← Lit.holds_toLiteral_iff, ← e.holds_restore_iff σ free, Lit.holds_toLiteral_iff]
    exact (h'.sound _ holds).facts l fixed

/-! ## The search -/

theorem Represents.upholds_prepareSearch (h : Represents f e) : Yields e.prepareSearch fun e' =>
    e.toPropagator.Upholds e'.toPropagator := by
  unfold prepareSearch
  refine (Propagator.collectGarbage_spec h.wellFormed.propagator h.root).bind ?_
  rintro p ⟨-, clauses, frame⟩
  exact Yields.pure (.of_clauses_eq clauses (by rw [frame]))

/-- Whatever the verdict, the engine goes back to the root level. -/
theorem Represents.upholds_searchModel (h : Represents f e) (consistent : e.consistent = true)
    (allocated : ∀ a ∈ as, a.var < n) : Yields (e.searchModel as) fun (_, e') =>
      e.toPropagator.Upholds e'.toPropagator := by
  unfold searchModel
  refine ((prepareSearch_spec h).and h.upholds_prepareSearch).bind ?_
  rintro e₁ ⟨⟨h₁, same, limit, -⟩, before⟩
  have consistent₁ := same.trans consistent
  obtain ⟨⟨verdict, e₂⟩, searched, ended⟩ :=
    search_spec h₁.wellFormed h₁.root consistent₁ limit allocated
  have during := upholds_of_search (h₁.searching consistent₁ limit) allocated searched
  have wf := ended.wellFormed.propagator
  have whole := (before.trans during).trans (.backtrack wf.trail 0)
  rw [searched]
  unfold retreat
  dsimp only [bind, Except.bind]
  rw [wf.retreat]
  cases verdict <;> exact Yields.pure whole

/-! ## Solving -/

/-- What a solve leaves alone if it eliminates nothing. -/
theorem Represents.upholds_solve (h : Represents f e) (allocated : ∀ a ∈ as, a.var < n)
    (solved : e.solve as false turnOff = .ok (sat, e')) :
    e.toPropagator.Upholds e'.toPropagator ∧ e'.marks = e.marks ∧
      e'.eliminations = e.eliminations ∧ (e'.consistent = true → e.consistent = true) := by
  cases consistent : e.consistent with
  | false =>
    rw [solve_of_contradicted consistent] at solved
    cases solved
    exact ⟨.refl _, rfl, rfl, fun still => consistent.symm.trans still⟩
  | true =>
    obtain ⟨ready, e₁, prepared, h₁, answer, searched⟩ :=
      h.exists_of_solve consistent allocated solved
    cases prepared
    rw [if_pos rfl] at searched
    have upholds := (h₁.upholds_searchModel answer allocated).of_eq searched
    obtain ⟨-, marks, eliminations, -⟩ := (h₁.searchModel_keeps answer allocated).of_eq searched
    cases turnOff <;> exact ⟨upholds, marks, eliminations, fun _ => rfl⟩

/-- A solve without elimination answers, and leaves no trace of its assumptions. -/
theorem Represents.solve_traceless (h : Represents f e) (allocated : ∀ a ∈ as, a.var < n)
    (turnOff : Bool) : Yields (e.solve as false turnOff) fun (_, e') => e.Traceless f e' := by
  obtain ⟨⟨sat, e'⟩, solved, spec⟩ := solve_spec h allocated false turnOff
  obtain ⟨upholds, marks, eliminations, still⟩ := h.upholds_solve allocated solved
  have h' := spec.represents
  refine ⟨_, solved, upholds.problems, marks, eliminations, upholds.fixed_prefix h.root, ?_, h'.root,
    ?_, h.admits_iff h' eliminations upholds still⟩
  · intro l hl σ holds
    have fixed := (Propagator.mem_fixed_iff h'.wellFormed.propagator.trail h'.root l).1 hl
    exact (h'.sound σ holds).facts l fixed
  · intro consistent
    exact ⟨h'.done consistent, Propagator.propagate_of_done (h'.done consistent)⟩

end Engine

end IncrementalSat
