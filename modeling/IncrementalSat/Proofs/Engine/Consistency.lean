import IncrementalSat.Proofs.Engine.Contradiction

/-!
# What cannot contradict a model

A solve that finds a model ends without a contradiction. Between calls everything is propagated, so
simplifying finds none either. That leaves clauses that are added and eliminations; and if the model
leaves no variable unset, it satisfies the formula, so no elimination can contradict it.
-/
namespace IncrementalSat

variable {n : Nat}

/-- With nothing left to propagate, propagation changes nothing. -/
theorem Propagator.propagate_of_done {p : Propagator n} (done : p.head = p.trail.size) :
    p.propagate = .ok (none, p) := by
  have past : p.trail.lits[p.head]? = none :=
    Array.getElem?_eq_none_iff.2 (Nat.le_of_eq done.symm)
  unfold propagate
  cases n with
  | zero => rw [propagateUpTo, if_neg (Nat.not_lt.2 (Nat.le_of_eq done.symm))]
  | succ k => rw [propagateUpTo, past]

namespace Engine

variable {e e' : Engine n} {f : Formula} {as : List (Literal Nat)}

/-- Simplifying finds no contradiction. -/
theorem Represents.consistent_of_simplify (h : Represents f e) (consistent : e.consistent = true)
    {ok : Bool} (simplified : e.simplify = .ok (ok, e')) : e'.consistent = true := by
  obtain ⟨-, answer, -⟩ := h.simplify.of_eq simplified
  obtain ⟨⟨ok, p⟩, inner, result⟩ := bind_eq_ok_iff.1 simplified
  cases result
  rw [answer]
  change e.toPropagator.simplify = .ok (ok, p) at inner
  unfold Propagator.simplify Propagator.requireRoot at inner
  rw [if_pos h.root] at inner
  obtain ⟨-, -, rest⟩ := bind_eq_ok_iff.1 inner
  rw [consistent, Propagator.propagate_of_done (h.done consistent)] at rest
  obtain ⟨_, propagated, rest⟩ := bind_eq_ok_iff.1 rest
  cases propagated
  obtain ⟨_, -, rest⟩ := bind_eq_ok_iff.1 rest
  obtain ⟨_, -, result⟩ := bind_eq_ok_iff.1 rest
  cases result
  rfl

/-- A search that finds a model finds no contradiction, and no search touches the marks or the
eliminations. -/
theorem Represents.searchModel_keeps (h : Represents f e) (consistent : e.consistent = true)
    (allocated : ∀ a ∈ as, a.var < n) : Yields (e.searchModel as) fun (sat, e') =>
      (sat = true → e'.consistent = true) ∧ e'.marks = e.marks ∧
        e'.eliminations = e.eliminations ∧ e'.eliminates = e.eliminates := by
  unfold searchModel
  refine (prepareSearch_spec h).bind ?_
  rintro e₁ ⟨h₁, same, limit, keeps⟩
  refine (search_spec h₁.wellFormed h₁.root (same.trans consistent) limit allocated).bind ?_
  rintro ⟨verdict, e₂⟩ ended
  have kept := keeps.trans ended.keeps
  unfold retreat
  dsimp only
  rw [ended.wellFormed.propagator.retreat]
  cases verdict with
  | sat =>
    exact Yields.pure ⟨fun _ => ended.consistent.2 nofun, kept.marks, kept.eliminations,
      kept.eliminates⟩
  | unsat => exact Yields.pure ⟨nofun, kept.marks, kept.eliminations, kept.eliminates⟩
  | failed => exact Yields.pure ⟨nofun, kept.marks, kept.eliminations, kept.eliminates⟩

/-- Without a contradiction, a solve gets ready for a search, and searches if that finds none. -/
theorem Represents.exists_of_solve (h : Represents f e) (consistent : e.consistent = true)
    (allocated : ∀ a ∈ as, a.var < n) {simplify turnOff sat : Bool}
    (solved : e.solve as simplify turnOff = .ok (sat, e')) : ∃ ready e₁,
      prepare { e with model := #[] } as simplify turnOff = .ok (ready, e₁) ∧
        Represents f e₁ ∧ e₁.consistent = ready ∧
        (if ready then e₁.searchModel as else pure (false, e₁)) = .ok (sat, e') := by
  have cleared := h.clearModel
  unfold solve at solved
  dsimp only at solved
  rw [consistent] at solved
  obtain ⟨⟨ready, e₁⟩, prepared, searched⟩ := bind_eq_ok_iff.1 solved
  obtain ⟨h₁, answer, -⟩ :=
    (prepare_spec cleared consistent allocated simplify turnOff).of_eq prepared
  exact ⟨ready, e₁, prepared, h₁, answer, searched⟩

/-- A solve that finds a model finds no contradiction. -/
theorem Represents.consistent_of_solve (h : Represents f e) (allocated : ∀ a ∈ as, a.var < n)
    {simplify turnOff : Bool} (found : e.solve as simplify turnOff = .ok (true, e')) :
    e'.consistent = true := by
  cases consistent : e.consistent with
  | false =>
    rw [solve_of_contradicted consistent] at found
    cases found
  | true =>
    obtain ⟨ready, e₁, -, h₁, answer, searched⟩ := h.exists_of_solve consistent allocated found
    cases ready with
    | true => exact ((h₁.searchModel_keeps answer allocated).of_eq searched).1 rfl
    | false => cases searched

/-- The stored model gives every variable a value. -/
def Total (e : Engine n) : Prop := ∀ v : Fin n, e.modelValue ⟨v, true⟩ ≠ .unset

/-- A total model that falsifies no clause of a formula satisfies it. -/
theorem holds_of_total (total : e.Total) (allocated : ∀ c ∈ f, ∀ l ∈ c, l.var < n)
    (kept : ∀ c ∈ f, ¬ e.Falsifies c) : f.Holds fun k => (e.model.getD k .unset).isHolds := by
  intro c hc
  have stands := kept c hc
  unfold Falsifies at stands
  push Not at stands
  obtain ⟨⟨k, sign⟩, hl, other⟩ := stands
  have set : e.model.getD k .unset ≠ .unset := total ⟨k, allocated c hc _ hl⟩
  refine ⟨⟨k, sign⟩, hl, ?_⟩
  change (e.model.getD k .unset).isHolds = sign
  change (if sign then e.model.getD k .unset else (e.model.getD k .unset).neg) ≠ .fails at other
  cases value : e.model.getD k .unset with
  | unset => exact absurd value set
  | holds =>
    cases sign with
    | true => rfl
    | false => exact absurd (congrArg Truth.neg value) other
  | fails =>
    cases sign with
    | true => exact absurd value other
    | false => rfl

end Engine

end IncrementalSat
