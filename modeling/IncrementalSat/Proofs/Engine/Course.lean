import IncrementalSat.Proofs.Engine.Solving

/-!
# The course of a search

A solve that finds something left to search begins a search, which goes from state to state until a
step comes to a verdict. What holds when it begins and is kept by every step holds in each of these
states.
-/
namespace IncrementalSat

namespace Engine

variable {n : Nat} {e start last : Engine n} {f : Formula} {as : List (Literal Nat)}
  {restartDue : Bool}

/-! ## States of a search -/

/-- The states from which a search that began with `start` takes a step, each with whether a restart
is due. -/
inductive Reaches (as : List (Literal Nat)) (start : Engine n) : Bool → Engine n → Prop
  | start : Reaches as start false start
  | next {restartDue due : Bool} {e e' : Engine n} (before : Reaches as start restartDue e)
      (step : searchStep as restartDue e = .ok (.running due, e')) : Reaches as start due e'

/-- Every state of a search is as searching requires. -/
theorem Reaches.searching (h : Reaches as start restartDue e) (begun : Searching start as start)
    (allocated : ∀ a ∈ as, a.var < n) : Searching start as e := by
  induction h with
  | start => exact begun
  | next _ step ih => exact ((searchStep_spec ih allocated _).of_eq step).1

/-- The loop ends with a step from one of the states it goes through. -/
theorem Takes.exists_last {k : Nat} {verdict : Verdict}
    (takes : Takes as k restartDue e verdict last) (reached : Reaches as start restartDue e) :
    ∃ due e', Reaches as start due e' ∧ searchStep as due e' = .ok (.finished verdict, last) := by
  induction takes with
  | last step => exact ⟨_, _, reached, step⟩
  | next step _ ih => exact ih (.next reached step)

theorem exists_last_of_search {verdict : Verdict} (searched : start.search as = .ok (verdict, last)) :
    ∃ due e, Reaches as start due e ∧ searchStep as due e = .ok (.finished verdict, last) := by
  obtain ⟨k, -, takes⟩ := takes_of_searchUpTo searched
  exact takes.exists_last .start

/-! ## The beginning -/

/-- An engine that is ready for a search can begin one. -/
theorem Represents.searching (h : Represents f e) (consistent : e.consistent = true)
    (limit : Limit e.learntLimit) : Searching e as e where
  wellFormed := h.wellFormed
  keeps := .refl _
  refines := .refl _
  under := .of_root h.wellFormed.propagator.trail h.root fun _ valid => valid
  consistent := consistent
  limit := limit

/-- A solve comes to the search that begins with `start`. -/
structure Begins (e : Engine n) (as : List (Literal Nat)) (simplify turnOff : Bool)
    (start : Engine n) : Prop where
  consistent : e.consistent = true
  prepared : ∃ e₁, { e with model := #[] }.prepare as simplify turnOff = .ok (true, e₁) ∧
    e₁.prepareSearch = .ok start

/-- Ready for a search, the engine still stands for the formula. -/
theorem Represents.begin (h : Represents f e) {simplify turnOff : Bool}
    (begins : e.Begins as simplify turnOff start) (allocated : ∀ a ∈ as, a.var < n) :
    Represents f start ∧ Searching start as start := by
  obtain ⟨consistent, e₁, prepared, ready⟩ := begins
  obtain ⟨h₁, answer, -⟩ :=
    (prepare_spec h.clearModel consistent allocated simplify turnOff).of_eq prepared
  obtain ⟨h₂, same, limit, -⟩ := (prepareSearch_spec h₁).of_eq ready
  exact ⟨h₂, h₂.searching (same.trans answer) limit⟩

end Engine

end IncrementalSat
