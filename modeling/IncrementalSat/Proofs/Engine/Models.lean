import IncrementalSat.Engine.Solve
import IncrementalSat.Proofs.Engine.Representation

/-!
# Models

Undoing the eliminations on the assignment a search ends with gives the same values as undoing them
on a valuation. The order matters: when an elimination is undone, the values of all other variables
in its clauses are settled, since they were eliminated later or not at all.
-/
namespace IncrementalSat

variable {n : Nat}

namespace Elimination

/-- The model gives the variable the value that it has in the valuation. -/
def Agrees (model : Vector Truth n) (σ : Valuation) (v : Fin n) : Prop :=
  model.get v = .ofBool (σ v)

variable {model : Vector Truth n} {σ : Valuation}

theorem Agrees.holdsIn_iff {l : Lit n} (h : Agrees model σ l.var) :
    holdsIn model l = true ↔ l.Holds σ := by
  unfold holdsIn
  rw [show model.get l.var = _ from h]
  unfold Lit.Holds
  cases σ l.var <;> cases l.positive <;> decide

theorem needsTrue_iff {x : Elimination n}
    (agrees : ∀ c ∈ x.clauses, ∀ l ∈ c, l.var ≠ x.var → Agrees model σ l.var) :
    x.needsTrue model = true ↔ x.NeedsTrue σ := by
  unfold needsTrue NeedsTrue
  simp only [List.any_eq_true, Bool.and_eq_true, List.contains_iff_mem, Bool.not_eq_true',
    List.any_eq_false]
  constructor
  · rintro ⟨c, hc, mem, none⟩
    refine ⟨c, hc, mem, fun l hl other holds => none l hl ⟨by simpa using other, ?_⟩⟩
    exact (agrees c hc l hl other).holdsIn_iff.2 holds
  · rintro ⟨c, hc, mem, none⟩
    refine ⟨c, hc, mem, fun l hl => ?_⟩
    rintro ⟨other, holds⟩
    have other : l.var ≠ x.var := by simpa using other
    exact none l hl other ((agrees c hc l hl other).holdsIn_iff.1 holds)

/-- Undoing one elimination settles its variable. -/
theorem agrees_undo {x : Elimination n} {v : Fin n} (other : v ≠ x.var → Agrees model σ v)
    (agrees : ∀ c ∈ x.clauses, ∀ l ∈ c, l.var ≠ x.var → Agrees model σ l.var) :
    Agrees (x.undo model) (x.repair σ) v := by
  unfold Agrees undo
  by_cases same : v = x.var
  · subst same
    rw [x.repair_var σ]
    have eq : x.needsTrue model = decide (x.NeedsTrue σ) := by
      rw [Bool.eq_iff_iff, needsTrue_iff agrees, decide_eq_true_iff]
    simp [eq]
  · have different : (x.var : Nat) ≠ v := fun eq => same (Fin.ext eq.symm)
    rw [x.repair_of_ne σ different.symm]
    have kept := other same
    unfold Agrees at kept
    simpa [Ne.symm same] using kept

/-- Undoing all eliminations settles every variable, if those that were not eliminated agree. -/
theorem agrees_foldl_undo (xs : List (Elimination n)) (model : Vector Truth n) (σ : Valuation)
    (ordered : xs.Pairwise fun newer older => ¬ newer.Mentions older.var)
    (agrees : ∀ v : Fin n, (∀ x ∈ xs, x.var ≠ v) → Agrees model σ v) (v : Fin n) :
    Agrees (xs.foldl (fun model x => x.undo model) model)
      (xs.foldl (fun σ x => x.repair σ) σ) v := by
  induction xs generalizing model σ with
  | nil => exact agrees v (by simp)
  | cons x xs ih =>
    obtain ⟨first, ordered⟩ := List.pairwise_cons.1 ordered
    refine ih (x.undo model) (x.repair σ) ordered fun w kept => ?_
    have settled : ∀ u : Fin n, u ≠ x.var → (∀ y ∈ xs, y.var ≠ u) → Agrees model σ u := by
      intro u other kept
      refine agrees u fun y hy => ?_
      rcases List.mem_cons.1 hy with rfl | hy
      · exact fun same => other same.symm
      · exact kept y hy
    refine agrees_undo (fun other => settled w other kept) ?_
    intro c hc l hl other
    refine settled l.var other fun y hy same => ?_
    exact first y hy (.inr ⟨c, hc, l, hl, same.symm⟩)

end Elimination

namespace Engine

variable {e : Engine n} {f : Formula} {as : List (Literal Nat)}

/-- The values on the trail; a variable without one is false. -/
def valuation (e : Engine n) : Valuation := fun k =>
  if h : k < n then (e.trail.valueOf ⟨k, h⟩).getD false else false

theorem valuation_eq (e : Engine n) (v : Fin n) :
    e.valuation v = (e.trail.valueOf v).getD false := dif_pos v.isLt

theorem holds_valuation {l : Lit n} (h : e.trail.eval l = some true) : l.Holds e.valuation := by
  unfold Lit.Holds
  rw [e.valuation_eq]
  unfold Trail.eval at h
  cases value : e.trail.valueOf l.var with
  | none =>
    rw [value] at h
    cases h
  | some b =>
    rw [value] at h
    simpa using h

/-- The extended assignment gives every variable its value in the restored valuation. -/
theorem agrees_extend (h : e.Hygienic)
    (assigned : ∀ v : Fin n, e.isEliminated v = false → e.trail.valueOf v ≠ none) (v : Fin n) :
    Elimination.Agrees (e.extend e.assignment) (e.restore e.valuation) v := by
  refine Elimination.agrees_foldl_undo e.eliminations e.assignment e.valuation h.ordered ?_ v
  intro w kept
  have stays : e.isEliminated w = false := by
    by_contra eliminated
    rw [Bool.not_eq_false] at eliminated
    obtain ⟨x, hx, same⟩ := (h.marked w).1 eliminated
    exact kept x hx same
  unfold Elimination.Agrees assignment
  rw [e.valuation_eq]
  cases value : e.trail.valueOf w with
  | none => exact absurd value (assigned w stays)
  | some b => simp [value, Truth.ofOption]

/-- The stored model is a total valuation that satisfies a formula and assumptions. -/
def Models (e : Engine n) (f : Formula) (as : List (Literal Nat)) : Prop :=
  ∃ σ : Valuation, (∀ v : Fin n, e.modelValue ⟨v, true⟩ = .ofBool (σ v)) ∧ f.Holds σ ∧
    ∀ a ∈ as, a.Holds σ

section

variable {start : Engine n} {verdict : Verdict} (h : Represents f start)
  (ended : Ended start as verdict e)

include h ended

theorem hygienic_of_ended : e.Hygienic := by
  have eliminated : ∀ v : Fin n, e.isEliminated v = start.isEliminated v := by
    intro v
    unfold isEliminated
    rw [ended.keeps.marks]
  refine ⟨?_, ?_, ?_⟩
  · intro v
    rw [eliminated, ended.keeps.eliminations]
    exact h.hygienic.marked v
  · intro v gone occurs
    rw [eliminated] at gone
    exact h.hygienic.absent v gone (ended.refines.occurs v occurs)
  · rw [ended.keeps.eliminations]
    exact h.hygienic.ordered

/-- If every variable that was not eliminated has a value, the trail satisfies what is required. -/
theorem requires_valuation (consistent : e.consistent = true)
    (assigned : ∀ v : Fin n, e.isEliminated v = false → e.trail.valueOf v ≠ none) :
    e.Requires e.valuation := by
  refine ⟨fun i c hc _ => ?_, fun l hl => holds_valuation hl.1⟩
  have wf := ended.wellFormed.propagator
  rcases wf.satisfied_or_unassigned (ended.done consistent) hc with ⟨l, hl, holds⟩ | ⟨unset, -⟩
  · exact ⟨l, hl, holds_valuation holds⟩
  · have stays : e.isEliminated c.first.var = false :=
      (hygienic_of_ended h ended).stays (.inl ⟨i, c, hc, c.first, by simp [Clause.lits], rfl⟩)
    exact absurd ((Trail.eval_eq_none_iff ..).1 unset) (assigned _ stays)

end

/-- If every variable that was not eliminated has a value in the end, a satisfied search leaves a
model of the formula and of assumptions on such variables. -/
theorem models_of_assigned {start : Engine n} (h : Represents f start)
    (before : start.consistent = true) (ended : Ended start as .sat e)
    (assigned : ∀ v : Fin n, e.isEliminated v = false → e.trail.valueOf v ≠ none)
    (usable : ∀ l : Lit n, l.toLiteral ∈ as → start.isEliminated l.var = false) :
    Models { e with model := (e.extend e.assignment).toArray } f as := by
  obtain ⟨assumed, -⟩ := ended.right
  have consistent : e.consistent = true := ended.consistent.2 (by simp)
  have hygienic := hygienic_of_ended h ended
  have required := ended.refines.complete _ (requires_valuation h ended consistent assigned)
  have restored : start.restore e.valuation = e.restore e.valuation := by
    unfold restore
    rw [ended.keeps.eliminations]
  refine ⟨e.restore e.valuation, ?_, ?_, ?_⟩
  · intro v
    have agrees : (e.extend e.assignment)[v.val] = .ofBool (e.restore e.valuation v) :=
      agrees_extend hygienic assigned v
    unfold modelValue Literal.truthIn
    simpa [Lit.toLiteral] using agrees
  · rw [← restored]
    exact h.covers before _ required
  · intro a ha
    obtain ⟨l, rfl, holds⟩ := assumed a ha
    refine (e.holds_restore_iff _ ?_).2 (holds_valuation holds)
    intro x hx same
    rw [ended.keeps.eliminations] at hx
    have gone := (h.hygienic.marked l.var).2 ⟨x, hx, Fin.ext same⟩
    rw [usable l ha] at gone
    cases gone

/-- If the search may branch on every variable that was not eliminated, all of them have a value in
the end. -/
theorem models_of_ended {start : Engine n} (h : Represents f start)
    (before : start.consistent = true) (ended : Ended start as .sat e)
    (decided : ∀ v : Fin n, start.marks.decision.get v = true ∨ start.isEliminated v = true)
    (usable : ∀ l : Lit n, l.toLiteral ∈ as → start.isEliminated l.var = false) :
    Models { e with model := (e.extend e.assignment).toArray } f as := by
  refine models_of_assigned h before ended ?_ usable
  intro v stays
  unfold isEliminated at stays
  refine ended.right.2 v ?_
  rw [ended.keeps.marks] at stays ⊢
  refine (decided v).resolve_right fun gone => ?_
  unfold isEliminated at gone
  rw [stays] at gone
  cases gone

end Engine

end IncrementalSat
