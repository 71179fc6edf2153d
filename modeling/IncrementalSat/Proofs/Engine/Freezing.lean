import IncrementalSat.Proofs.Engine.Transience

/-!
# Frozen variables are spared

A call that eliminates variables takes none that is frozen, named by an assumption, eliminated already
or fixed, and it leaves the frozen marks as they were, however it ends. A literal that is fixed stays
fixed during the call, and no eliminated variable is fixed afterwards; so no variable that is eliminated
was fixed before.
-/
namespace IncrementalSat

namespace Engine

variable {n : Nat} {e e' : Engine n} {f : Formula} {as : List (Literal Nat)} {simplify turnOff : Bool}

/-- The variable may be eliminated in a call under assumptions. -/
structure Expendable (as : List (Literal Nat)) (e : Engine n) (v : Fin n) : Prop where
  thawed : e.isFrozen v = false
  unassumed : ∀ l : Lit n, l.toLiteral ∈ as → l.var ≠ v
  unset : e.trail.valueOf v = none

/-- What a call under assumptions does to frozen and to eliminated variables. -/
structure Spares (as : List (Literal Nat)) (e e' : Engine n) : Prop where
  frozen : ∀ v : Fin n, e'.isFrozen v = e.isFrozen v
  more : ∀ v : Fin n, e.isEliminated v = true → e'.isEliminated v = true
  expendable : ∀ v : Fin n, e.isEliminated v = false → e'.isEliminated v = true →
    e.Expendable as v ∧ e'.trail.valueOf v = none

/-- If nothing is eliminated, there is nothing to spare. -/
theorem Spares.of_marks_eq (marks : e'.marks = e.marks) : Spares as e e' := by
  have frozen : ∀ v : Fin n, e'.isFrozen v = e.isFrozen v := fun v => by
    unfold isFrozen
    rw [marks]
  have same : ∀ v : Fin n, e'.isEliminated v = e.isEliminated v := fun v => by
    unfold isEliminated
    rw [marks]
  refine ⟨frozen, fun v gone => (same v).trans gone, fun v kept gone => ?_⟩
  rw [same, kept] at gone
  cases gone

namespace Represents

/-- At the root level a variable has a value only if it is fixed. -/
theorem fixes_of_valueOf (h : Represents f e) {v : Fin n} {b : Bool}
    (value : e.trail.valueOf v = some b) : e.Fixes ⟨v, b⟩ := by
  rw [Propagator.fixes_iff_of_root h.wellFormed.propagator.trail h.root]
  simp [Trail.eval, value]

/-- Variables that are eliminated at the end have no value, neither then nor at the start. -/
theorem unset_of_eliminated (h : Represents f e) (h' : Represents f e')
    (fixes : ∀ l, e.Fixes l → e'.Fixes l) {v : Fin n} (gone : e'.isEliminated v = true) :
    e.trail.valueOf v = none ∧ e'.trail.valueOf v = none := by
  have absent : ∀ b, ¬ e'.Fixes ⟨v, b⟩ := fun b fixed =>
    h'.hygienic.absent v gone (.inr ⟨_, fixed, rfl⟩)
  constructor
  · cases value : e.trail.valueOf v with
    | none => rfl
    | some b => exact absurd (fixes _ (h.fixes_of_valueOf value)) (absent b)
  · cases value : e'.trail.valueOf v with
    | none => rfl
    | some b => exact absurd (h'.fixes_of_valueOf value) (absent b)

variable (h : Represents f e)

include h

/-- The search, if there is one, takes back nothing that is fixed. -/
theorem fixes_of_searchPrepared {ready sat : Bool} (answer : e.consistent = ready)
    (allocated : ∀ a ∈ as, a.var < n)
    (searched : (if ready then e.searchModel as else pure (false, e)) = .ok (sat, e')) {l : Lit n}
    (fixed : e.Fixes l) : e'.Fixes l := by
  cases ready with
  | false =>
    cases searched
    exact fixed
  | true =>
    have h' := ((searchModel_spec h answer allocated).of_eq searched).represents
    have upholds := (h.upholds_searchModel answer allocated).of_eq searched
    exact upholds.fixes h.wellFormed.propagator.trail h'.wellFormed.propagator.trail fixed

theorem spares_of_eliminate {ok : Bool} (eliminated : e.eliminate turnOff = .ok (ok, e')) :
    e.Spares [] e' := by
  obtain ⟨h', -, sheds⟩ := (h.eliminate turnOff).of_eq eliminated
  refine ⟨fun v => ?_, sheds.more, fun v kept gone => ?_⟩
  · unfold isFrozen
    rw [sheds.frozen]
  · obtain ⟨before, after⟩ := h.unset_of_eliminated h' sheds.fixes gone
    refine ⟨⟨(sheds.thawed v gone).resolve_left ?_, by simp, before⟩, after⟩
    rw [kept]
    exact Bool.false_ne_true

/-- After the preparations of a solve, the search leaves the marks and what is fixed alone. -/
theorem spares_of_solve (allocated : ∀ a ∈ as, a.var < n) {sat : Bool}
    (solved : e.solve as simplify turnOff = .ok (sat, e')) : e.Spares as e' := by
  cases consistent : e.consistent with
  | false =>
    rw [solve_of_contradicted consistent] at solved
    cases solved
    exact .of_marks_eq rfl
  | true =>
    have h' := ((solve_spec h allocated simplify turnOff).of_eq solved).represents
    obtain ⟨ready, e₁, ready', h₁, answer, searched⟩ := h.exists_of_solve consistent allocated solved
    obtain ⟨-, -, prepared⟩ :=
      (prepare_spec h.clearModel consistent allocated simplify turnOff).of_eq ready'
    obtain ⟨marks, -⟩ := marks_of_searchPrepared h₁ answer allocated searched
    have during : e₁.Spares as e' := .of_marks_eq marks
    refine ⟨fun v => (during.frozen v).trans (prepared.frozen v),
      fun v gone => during.more v (prepared.more v gone), fun v kept gone => ?_⟩
    have fixes : ∀ l, e.Fixes l → e'.Fixes l := fun l fixed =>
      h₁.fixes_of_searchPrepared answer allocated searched (prepared.fixes l fixed)
    obtain ⟨before, after⟩ := h.unset_of_eliminated h' fixes gone
    unfold isEliminated at gone
    rw [marks] at gone
    refine ⟨⟨(prepared.thawed v gone).resolve_left ?_, fun l hl eq => ?_, before⟩, after⟩
    · exact fun gone => by cases kept.symm.trans gone
    · subst eq
      cases kept.symm.trans (prepared.spared l hl gone)

end Represents

end Engine

end IncrementalSat
