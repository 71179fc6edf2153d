import IncrementalSat.Proofs.Engine.Models

/-!
# Partial models

A search may end with variables that it must not branch on left unset. The clauses that are still
stored are not false then, and neither is a clause that was removed for the positive literal of an
eliminated variable, whatever the search left unset. Clauses removed for a negative literal can be
false: the eliminated variable may be made true for a clause that an unset variable keeps from being
true.
-/
namespace IncrementalSat

variable {n : Nat}

theorem Literal.truthIn_neg (model : Array Truth) (l : Literal Nat) :
    l.neg.truthIn model = (l.truthIn model).neg := by
  obtain ⟨k, sign⟩ := l
  cases sign <;> simp [truthIn, neg, Truth.neg_neg]

theorem Lit.truthIn_toArray (model : Vector Truth n) (l : Lit n) :
    l.toLiteral.truthIn model.toArray =
      if l.positive then model.get l.var else (model.get l.var).neg := by
  have read : model.toArray.getD l.var .unset = model.get l.var := by
    simp
    rfl
  simp [Literal.truthIn, toLiteral, read]

/-! ## Undoing eliminations -/

namespace Elimination

theorem holdsIn_iff (model : Vector Truth n) (l : Lit n) :
    holdsIn model l = true ↔ l.toLiteral.truthIn model.toArray = .holds := by
  rw [Lit.truthIn_toArray]
  unfold holdsIn
  cases l.positive <;> cases model.get l.var <;> decide

theorem get_undo_of_ne (x : Elimination n) (model : Vector Truth n) {v : Fin n} (other : v ≠ x.var) :
    (x.undo model).get v = model.get v := by
  simp [undo, other.symm]

theorem get_undo_var (x : Elimination n) (model : Vector Truth n) :
    (x.undo model).get x.var = .ofBool (x.needsTrue model) := by
  simp [undo]

theorem get_foldl_undo_of_ne (xs : List (Elimination n)) (model : Vector Truth n) {v : Fin n}
    (kept : ∀ x ∈ xs, x.var ≠ v) :
    (xs.foldl (fun model x => x.undo model) model).get v = model.get v := by
  induction xs generalizing model with
  | nil => rfl
  | cons x xs ih =>
    rw [List.foldl_cons, ih _ fun y hy => kept y (List.mem_cons_of_mem _ hy)]
    exact x.get_undo_of_ne model (kept x List.mem_cons_self).symm

/-- Undoing an elimination makes a literal true in every clause with the positive literal. -/
theorem holdsIn_undo (x : Elimination n) (model : Vector Truth n) {c : List (Lit n)}
    (hc : c ∈ x.clauses) (positive : ⟨x.var, true⟩ ∈ c) :
    ∃ l ∈ c, holdsIn (x.undo model) l = true := by
  by_cases others : ∃ l ∈ c, l.var ≠ x.var ∧ holdsIn model l = true
  · obtain ⟨l, hl, other, holds⟩ := others
    refine ⟨l, hl, ?_⟩
    unfold holdsIn at holds ⊢
    rwa [x.get_undo_of_ne model other]
  · have needed : x.needsTrue model = true := by
      simp only [needsTrue, List.any_eq_true, Bool.and_eq_true, List.contains_iff_mem,
        Bool.not_eq_true', List.any_eq_false]
      refine ⟨c, hc, positive, fun l hl found => others ⟨l, hl, ?_⟩⟩
      simpa using found
    refine ⟨⟨x.var, true⟩, positive, ?_⟩
    unfold holdsIn
    rw [x.get_undo_var, needed]
    rfl

/-- The clauses removed for the positive literal of a variable are satisfied in the end. The clauses
of an elimination do not mention variables whose eliminations are undone later. -/
theorem holdsIn_foldl_undo (xs : List (Elimination n)) (model : Vector Truth n)
    (ordered : xs.Pairwise fun newer older => ¬ newer.Mentions older.var) {x : Elimination n}
    (hx : x ∈ xs) {c : List (Lit n)} (hc : c ∈ x.clauses) (positive : ⟨x.var, true⟩ ∈ c) :
    ∃ l ∈ c, holdsIn (xs.foldl (fun model x => x.undo model) model) l = true := by
  induction xs generalizing model with
  | nil => cases hx
  | cons y ys ih =>
    obtain ⟨first, ordered⟩ := List.pairwise_cons.1 ordered
    rw [List.foldl_cons]
    rcases List.mem_cons.1 hx with rfl | later
    · obtain ⟨l, hl, holds⟩ := x.holdsIn_undo model hc positive
      refine ⟨l, hl, ?_⟩
      unfold holdsIn at holds ⊢
      rwa [get_foldl_undo_of_ne ys _ fun z hz same => first z hz (.inr ⟨c, hc, l, hl, same.symm⟩)]
    · exact ih (y.undo model) ordered later

end Elimination

/-! ## What can be false -/

namespace Engine

variable {e start : Engine n} {f : Formula} {as : List (Literal Nat)} {clause : List (Literal Nat)}

/-- Every literal of the clause is false in the stored model. -/
def Falsifies (e : Engine n) (clause : List (Literal Nat)) : Prop :=
  ∀ l ∈ clause, l.truthIn e.model = .fails

/-- The clause has the negative literal of an eliminated variable, and the stored model leaves a
variable unset. -/
structure Excuses (e : Engine n) (clause : List (Literal Nat)) : Prop where
  eliminated : ∃ v : Fin n, ⟨v.val, false⟩ ∈ clause ∧ e.isEliminated v = true
  unset : ∃ v : Fin n, e.modelValue ⟨v, true⟩ = .unset

/-- Variables that were not eliminated have the values that the search gave them. -/
theorem get_extend (h : e.Hygienic) {v : Fin n} (stays : e.isEliminated v = false) :
    (e.extend e.assignment).get v = .ofOption (e.trail.valueOf v) := by
  have kept : ∀ x ∈ e.eliminations, x.var ≠ v := by
    intro x hx same
    have gone := (h.marked v).2 ⟨x, hx, same⟩
    rw [stays] at gone
    cases gone
  calc
    (e.extend e.assignment).get v = e.assignment.get v :=
      Elimination.get_foldl_undo_of_ne e.eliminations e.assignment kept
    _ = .ofOption (e.trail.valueOf v) := by simp [assignment]

/-- A literal that the extended assignment makes false is false on the trail. -/
theorem eval_of_fails (h : e.Hygienic) {l : Lit n} (stays : e.isEliminated l.var = false)
    (fails : l.toLiteral.truthIn (e.extend e.assignment).toArray = .fails) :
    e.trail.eval l = some false := by
  rw [Lit.truthIn_toArray, get_extend h stays] at fails
  unfold Trail.eval
  cases value : e.trail.valueOf l.var with
  | none =>
    rw [value] at fails
    cases sign : l.positive <;> simp [sign, Truth.ofOption, Truth.neg] at fails
  | some b =>
    rw [value] at fails
    cases sign : l.positive <;> cases b <;>
      simp [sign, Truth.ofOption, Truth.ofBool, Truth.neg] at fails ⊢

section

variable (h : Represents f start) (ended : Ended start as .sat e)

include h ended

/-- A clause that is accounted for is not false: its literals are opposite, or one of them is fixed,
or they include a stored clause, which propagation keeps from being false. -/
theorem not_fails_of_accounts (accounts : e.Accounts clause) :
    ∃ l ∈ clause, l.truthIn (e.extend e.assignment).toArray ≠ .fails := by
  have hygienic := hygienic_of_ended h ended
  have wf := ended.wellFormed.propagator
  have done := ended.done (ended.consistent.2 (by simp))
  by_contra fails
  push Not at fails
  rcases accounts with ⟨l, hl, opposite⟩ | ⟨ls, part, ⟨l, hl, fixed⟩ | ⟨i, c, hc, -, sub⟩⟩
  · have value := fails _ opposite
    rw [Literal.truthIn_neg, fails l hl] at value
    cases value
  · have stays := hygienic.stays (.inr ⟨l, fixed, rfl⟩)
    have value := eval_of_fails hygienic stays (fails _ (part l hl))
    rw [fixed.1] at value
    cases value
  · have false : ∀ l ∈ c.lits, e.trail.eval l = some false := fun l hl =>
      eval_of_fails hygienic (hygienic.stays (.inl ⟨i, c, hc, l, hl, rfl⟩)) (fails _ (part l (sub l hl)))
    rcases wf.satisfied_or_unassigned done hc with ⟨l, hl, holds⟩ | ⟨unset, -⟩
    · rw [false l hl] at holds
      cases holds
    · rw [false c.first (by simp [Clause.lits])] at unset
      cases unset

/-- A clause of the formula is false in the model that a satisfied search leaves only if the clause
has the negative literal of an eliminated variable and some variable is unset. -/
theorem excuses_of_ended (before : start.consistent = true)
    (usable : ∀ l : Lit n, l.toLiteral ∈ as → start.isEliminated l.var = false)
    (mem : clause ∈ f)
    (falsified : Falsifies { e with model := (e.extend e.assignment).toArray } clause) :
    Excuses { e with model := (e.extend e.assignment).toArray } clause := by
  have hygienic := hygienic_of_ended h ended
  constructor
  · rcases h.traced before clause mem with accounts | ⟨x, hx, c, hc, ⟨⟨w, sign⟩, hl, rfl⟩, part⟩
    · obtain ⟨l, hl, kept⟩ :=
        not_fails_of_accounts h ended (ended.refines.preserves.accounts accounts)
      exact absurd (falsified l hl) kept
    · rw [← ended.keeps.eliminations] at hx
      cases sign with
      | true =>
        obtain ⟨l, hl, holds⟩ :=
          Elimination.holdsIn_foldl_undo e.eliminations e.assignment hygienic.ordered hx hc hl
        cases (falsified _ (part l hl)).symm.trans ((Elimination.holdsIn_iff _ l).1 holds)
      | false => exact ⟨x.var, part _ hl, (hygienic.marked x.var).2 ⟨x, hx, rfl⟩⟩
  · by_contra complete
    push Not at complete
    have assigned : ∀ v : Fin n, e.isEliminated v = false → e.trail.valueOf v ≠ none := by
      intro v stays value
      apply complete v
      refine (Lit.truthIn_toArray (e.extend e.assignment) ⟨v, true⟩).trans ?_
      rw [get_extend hygienic stays, value]
      rfl
    obtain ⟨σ, values, holds, -⟩ := models_of_assigned h before ended assigned usable
    obtain ⟨⟨k, sign⟩, hl, holds⟩ := holds clause mem
    have value : Literal.truthIn _ ⟨k, true⟩ = .ofBool (σ k) :=
      values ⟨k, h.allocated clause mem _ hl⟩
    have fails := falsified _ hl
    cases sign with
    | true =>
      rw [value, show σ k = true from holds] at fails
      cases fails
    | false =>
      have opposite := Literal.truthIn_neg (e.extend e.assignment).toArray ⟨k, true⟩
      rw [value, show σ k = false from holds] at opposite
      cases fails.symm.trans opposite

end

end Engine

end IncrementalSat
