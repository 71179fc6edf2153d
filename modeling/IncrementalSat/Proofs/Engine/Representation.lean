import IncrementalSat.Proofs.Elimination.Resolution
import IncrementalSat.Proofs.Propagator.Simplification
import IncrementalSat.Proofs.Search.Steps

/-!
# The formula an engine stands for

Between calls an engine represents the clauses that were added to it. Whatever it says follows from
them; and a valuation that satisfies what it requires satisfies all of them, once the eliminations
are undone. Each clause can be traced to what accounts for it now, or to a clause that was removed
with a variable. Eliminated variables are gone from the clauses and the trail, and a clause removed with
a variable mentions no variable that was eliminated before.
-/
namespace IncrementalSat

variable {n : Nat}

/-- The variable is the one eliminated, or in a clause removed with it. -/
def Elimination.Mentions (x : Elimination n) (v : Fin n) : Prop :=
  v = x.var ∨ ∃ c ∈ x.clauses, ∃ l ∈ c, l.var = v

namespace Engine

variable {e e' : Engine n} {f : Formula} {lits : List (Literal Nat)} {σ : Valuation}

/-- Undoes every elimination on a valuation, the latest first. -/
def restore (e : Engine n) (σ : Valuation) : Valuation :=
  e.eliminations.foldl (fun σ x => x.repair σ) σ

/-- Some literals of the clause are a clause that was removed with a variable among them. -/
def Removes (e : Engine n) (clause : List (Literal Nat)) : Prop :=
  ∃ x ∈ e.eliminations, ∃ c ∈ x.clauses, (∃ l ∈ c, l.var = x.var) ∧ ∀ l ∈ c, l.toLiteral ∈ clause

/-- Eliminated variables have left no trace but the eliminations. -/
structure Hygienic (e : Engine n) : Prop where
  marked : ∀ v : Fin n, e.isEliminated v = true ↔ ∃ x ∈ e.eliminations, x.var = v
  absent : ∀ v : Fin n, e.isEliminated v = true → ¬ e.Occurs v
  ordered : e.eliminations.Pairwise fun newer older => ¬ newer.Mentions older.var

/-- The engine stands for the formula. -/
structure Represents (f : Formula) (e : Engine n) : Prop where
  wellFormed : e.WellFormed
  root : e.trail.level = 0
  done : e.consistent = true → e.head = e.trail.size
  sound : ∀ σ, f.Holds σ → e.Valid σ
  covers : e.consistent = true → ∀ σ, e.Requires σ → f.Holds (e.restore σ)
  traced : e.consistent = true → ∀ c ∈ f, e.Accounts c ∨ e.Removes c
  refuted : e.consistent = false → f.Unsatisfiable
  hygienic : e.Hygienic
  allocated : ∀ c ∈ f, ∀ l ∈ c, l.var < n

/-! ## Undoing eliminations -/

/-- Variables that were not eliminated keep their values. -/
theorem restore_of_ne (e : Engine n) (σ : Valuation) {k : Nat}
    (kept : ∀ x ∈ e.eliminations, x.var.val ≠ k) : e.restore σ k = σ k := by
  unfold restore
  revert kept
  generalize e.eliminations = xs
  intro kept
  induction xs generalizing σ with
  | nil => rfl
  | cons x xs ih =>
    rw [List.foldl_cons, ih _ fun y hy => kept y (List.mem_cons_of_mem _ hy)]
    exact x.repair_of_ne σ fun same => kept x (by simp) same.symm

theorem holds_restore_iff (e : Engine n) (σ : Valuation) {l : Literal Nat}
    (kept : ∀ x ∈ e.eliminations, x.var.val ≠ l.var) : l.Holds (e.restore σ) ↔ l.Holds σ := by
  rw [Literal.Holds, e.restore_of_ne σ kept, Literal.Holds]

theorem Hygienic.stays (h : e.Hygienic) {v : Fin n} (occurs : e.Occurs v) :
    e.isEliminated v = false := by
  by_contra eliminated
  rw [Bool.not_eq_false] at eliminated
  exact h.absent v eliminated occurs

/-- Literals of variables that were not eliminated name the variable of no elimination. -/
theorem Hygienic.free_of_usable (h : e.Hygienic) {ms : List (Lit n)}
    (usable : ∀ m ∈ ms, e.isEliminated m.var = false) :
    ∀ l ∈ ms.map Lit.toLiteral, ∀ x ∈ e.eliminations, x.var.val ≠ l.var := by
  simp only [List.forall_mem_map]
  intro m hm x hx same
  have gone := (h.marked m.var).2 ⟨x, hx, Fin.ext same⟩
  rw [usable m hm] at gone
  cases gone

namespace Represents

/-- Only the propagator, the eliminations and what searches need matter. -/
theorem of_eq (h : Represents f e) (propagator : e'.toPropagator = e.toPropagator)
    (heap : e'.order.heap.Complete) (clear : ∀ v : Fin n, e'.seen.get v = false)
    (eliminations : e'.eliminations = e.eliminations)
    (eliminated : e'.marks.eliminated = e.marks.eliminated) : Represents f e' where
  wellFormed := ⟨propagator ▸ h.wellFormed.propagator, heap, clear⟩
  root := by rw [propagator]; exact h.root
  done := by rw [propagator]; exact h.done
  sound := by rw [propagator]; exact h.sound
  covers := by
    unfold restore
    rw [propagator, eliminations]
    exact h.covers
  traced := by
    unfold Removes
    rw [propagator, eliminations]
    exact h.traced
  refuted := by rw [propagator]; exact h.refuted
  hygienic := by
    refine ⟨?_, ?_, by rw [eliminations]; exact h.hygienic.ordered⟩
    · unfold isEliminated
      rw [eliminated, eliminations]
      exact h.hygienic.marked
    · unfold isEliminated
      rw [eliminated, propagator]
      exact h.hygienic.absent
  allocated := h.allocated

/-- The stored model does not matter. -/
theorem clearModel (h : Represents f e) : Represents f { e with model := #[] } :=
  h.of_eq rfl h.wellFormed.heap h.wellFormed.clear rfl rfl

/-- A propagator that refines the one of an engine can take its place. -/
theorem of_refines (h : Represents f e) {p : Propagator n} (wf : p.WellFormed)
    (root : p.trail.level = 0) (done : p.consistent = true → p.head = p.trail.size)
    (refines : e.toPropagator.Refines p) (still : p.consistent = true → e.consistent = true)
    (refuted : p.consistent = false → f.Unsatisfiable) :
    Represents f { e with toPropagator := p } where
  wellFormed := ⟨wf, h.wellFormed.heap, h.wellFormed.clear⟩
  root := root
  done := done
  sound := fun σ holds => refines.sound σ (h.sound σ holds)
  covers := fun consistent σ required => h.covers (still consistent) σ (refines.complete σ required)
  traced := fun consistent c hc =>
    (h.traced (still consistent) c hc).imp_left refines.preserves.accounts
  refuted := refuted
  hygienic := ⟨h.hygienic.marked,
    fun v eliminated occurs => h.hygienic.absent v eliminated (refines.occurs v occurs),
    h.hygienic.ordered⟩
  allocated := h.allocated

/-- The engine after a clause was added stands for the formula with that clause. -/
theorem addClause (h : Represents f e) (allocated : ∀ l ∈ lits, l.var < n)
    (usable : ∀ l ∈ lits, ∀ x ∈ e.eliminations, x.var.val ≠ l.var) :
    Yields (e.addClause lits) fun (ok, e') => Represents (lits :: f) e' ∧
      e'.consistent = ok ∧ e' = { e with toPropagator := e'.toPropagator } := by
  have wf := h.wellFormed.propagator
  refine (Propagator.addClause_spec wf h.root allocated).bind ?_
  rintro ⟨ok, p⟩ step
  obtain ⟨wf', root⟩ := step.wellFormed wf h.root
  have said : ∀ σ, Formula.Holds σ (lits :: f) →
      p.Valid σ ∧ (e.consistent = true → ok = true) := fun σ holds =>
    step.sound wf h.root (h.sound σ fun c hc => holds c (List.mem_cons_of_mem _ hc))
      (holds lits List.mem_cons_self)
  refine Yields.pure ⟨⟨⟨wf', h.wellFormed.heap, h.wellFormed.clear⟩, root, ?_, ?_, ?_, ?_, ?_, ?_,
    List.forall_mem_cons.2 ⟨allocated, h.allocated⟩⟩, step.consistent_eq, rfl⟩
  · exact step.done wf h.root h.done
  · exact fun σ holds => (said σ holds).1
  · intro consistent σ required
    have answer : ok = true := step.consistent_eq.symm.trans consistent
    subst answer
    obtain ⟨required', l, hl, holds⟩ := step.complete wf h.root required
    have old := h.covers (step.before rfl) σ required'
    intro c hc
    rcases List.mem_cons.1 hc with rfl | hc
    · exact ⟨l, hl, (e.holds_restore_iff σ (usable l hl)).2 holds⟩
    · exact old c hc
  · intro consistent
    have answer : ok = true := step.consistent_eq.symm.trans consistent
    have before := step.before answer
    refine List.forall_mem_cons.2 ⟨.inl (step.accounts wf h.root before (.inl answer)), ?_⟩
    exact fun c hc => (h.traced before c hc).imp_left (step.preserves wf h.root).accounts
  · intro inconsistent σ holds
    cases before : e.consistent with
    | true =>
      have answer := (said σ holds).2 before
      rw [← step.consistent_eq, inconsistent] at answer
      cases answer
    | false => exact h.refuted before σ fun c hc => holds c (List.mem_cons_of_mem _ hc)
  · refine ⟨h.hygienic.marked, ?_, h.hygienic.ordered⟩
    intro v eliminated occurs
    rcases step.occurs wf h.root occurs with old | ⟨l, hl, same⟩
    · exact h.hygienic.absent v eliminated old
    · obtain ⟨x, hx, rfl⟩ := (h.hygienic.marked v).1 eliminated
      exact usable l hl x hx same.symm

theorem simplify (h : Represents f e) : Yields e.simplify fun (ok, e') => Represents f e' ∧
    e'.consistent = ok ∧ e' = { e with toPropagator := e'.toPropagator } := by
  refine (Propagator.simplify_spec h.wellFormed.propagator h.root).bind ?_
  rintro ⟨ok, p⟩ step
  refine Yields.pure ⟨h.of_refines step.wellFormed step.root ?_ step.refines ?_ ?_,
    step.consistent, rfl⟩
  · exact fun consistent => step.done (step.consistent.symm.trans consistent)
  · exact fun consistent => step.before (step.consistent.symm.trans consistent)
  · intro inconsistent σ holds
    cases consistent : e.consistent with
    | true => exact step.refuted consistent (step.consistent.symm.trans inconsistent) σ (h.sound σ holds)
    | false => exact h.refuted consistent σ holds

/-- Simplifying takes back nothing that is fixed. -/
theorem fixes_of_simplify (h : Represents f e) {ok : Bool} (simplified : e.simplify = .ok (ok, e'))
    {l : Lit n} (fixed : e.Fixes l) : e'.Fixes l := by
  obtain ⟨⟨ok, p⟩, inner, result⟩ := bind_eq_ok_iff.1 simplified
  cases result
  have step := (Propagator.simplify_spec h.wellFormed.propagator h.root).of_eq inner
  exact step.refines.preserves.facts l fixed

end Represents

end Engine

end IncrementalSat
