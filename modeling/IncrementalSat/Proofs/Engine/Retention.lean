import IncrementalSat.Proofs.Engine.Consistency

/-!
# Engines that eliminate no more

Once elimination is turned off, or a contradiction is known, nothing is eliminated any more. An
elimination or a solve that is asked to turn elimination off leads to one or the other: it may end
early, before elimination is turned off, but then there is a contradiction.
-/
namespace IncrementalSat

variable {n : Nat}

namespace Elimination

/-- The number of the variable, and the clauses over numbers. -/
def named (x : Elimination n) : Nat × Formula := (x.var, x.clauses.map fun c => c.map Lit.toLiteral)

theorem named_grow (x : Elimination n) : x.grow.named = x.named := by
  unfold named grow
  rw [List.map_map]
  refine congrArg (Prod.mk x.var.val) (List.map_congr_left fun c _ => ?_)
  exact List.map_map

end Elimination

namespace Engine

variable {e e' : Engine n} {f : Formula} {as : List (Literal Nat)} {ok sat : Bool}

/-- Nothing can be eliminated any more. -/
def Settled (e : Engine n) : Prop := e.eliminates = false ∨ e.consistent = false

/-- The same variables are eliminated, and the same clauses were removed with them. -/
structure Retains (e e' : Engine n) : Prop where
  eliminated : e'.marks.eliminated = e.marks.eliminated
  eliminations : e'.eliminations = e.eliminations

theorem Retains.refl (e : Engine n) : e.Retains e := ⟨rfl, rfl⟩

theorem Retains.trans {e'' : Engine n} (h : e.Retains e') (h' : e'.Retains e'') : e.Retains e'' where
  eliminated := h'.eliminated.trans h.eliminated
  eliminations := h'.eliminations.trans h.eliminations

theorem Refrozen.retains (same : e.Refrozen e') :
    e.Retains e' ∧ e'.eliminates = e.eliminates := by
  rw [same]
  exact ⟨⟨rfl, rfl⟩, rfl⟩

/-! ## After elimination was turned off -/

/-- An elimination only simplifies then. -/
theorem eliminate_of_off (off : e.eliminates = false) {turnOff : Bool}
    (eliminated : e.eliminate turnOff = .ok (ok, e')) :
    e' = { e with toPropagator := e'.toPropagator } := by
  unfold eliminate at eliminated
  obtain ⟨⟨ok₁, e₁⟩, simplified, rest⟩ := bind_eq_ok_iff.1 eliminated
  obtain ⟨⟨ok₂, p⟩, -, frame⟩ := bind_eq_ok_iff.1 simplified
  cases frame
  cases ok₁ with
  | false =>
    cases rest
    rfl
  | true =>
    change (if (!e.eliminates) = true then _ else _) = _ at rest
    rw [if_pos (by rw [off]; rfl)] at rest
    cases rest
    rfl

theorem retains_of_eliminateUnder (off : e.eliminates = false) (allocated : ∀ a ∈ as, a.var < n)
    {turnOff : Bool} (eliminated : e.eliminateUnder as turnOff = .ok (ok, e')) :
    e.Retains e' ∧ e'.eliminates = false := by
  unfold eliminateUnder at eliminated
  obtain ⟨⟨vs, e₁⟩, froze, rest⟩ := bind_eq_ok_iff.1 eliminated
  obtain ⟨⟨ok₂, e₂⟩, inner, result⟩ := bind_eq_ok_iff.1 rest
  obtain ⟨before, -⟩ := (freezeAll_spec as e allocated).of_eq froze
  obtain ⟨first, same⟩ := before.retains
  have frame := eliminate_of_off (same.trans off) inner
  have second : e₁.Retains e₂ ∧ e₂.eliminates = e₁.eliminates := by
    rw [frame]
    exact ⟨⟨rfl, rfl⟩, rfl⟩
  obtain ⟨third, same'⟩ := (refrozen_unfreezeAll vs e₂).retains
  cases result
  exact ⟨(first.trans second.1).trans third, same'.trans (second.2.trans (same.trans off))⟩

/-- Getting ready for a search eliminates variables or does nothing, and then may turn elimination
off. -/
theorem exists_of_prepare {simplify turnOff : Bool}
    (prepared : e.prepare as simplify turnOff = .ok (ok, e')) :
    ∃ e₁, (e₁ = e ∨ e.eliminateUnder as turnOff = .ok (ok, e₁)) ∧
      e' = if turnOff then e₁.stopEliminating else e₁ := by
  unfold prepare at prepared
  cases simplify with
  | false =>
    cases prepared
    exact ⟨e, .inl rfl, rfl⟩
  | true =>
    change (_ >>= _) = _ at prepared
    obtain ⟨⟨ok₁, e₁⟩, inner, result⟩ := bind_eq_ok_iff.1 prepared
    cases result
    exact ⟨e₁, .inr inner, rfl⟩

theorem retains_of_prepare (off : e.eliminates = false) (allocated : ∀ a ∈ as, a.var < n)
    {simplify turnOff : Bool} (prepared : e.prepare as simplify turnOff = .ok (ok, e')) :
    e.Retains e' ∧ e'.eliminates = false := by
  obtain ⟨e₁, inner, rfl⟩ := exists_of_prepare prepared
  have kept : e.Retains e₁ ∧ e₁.eliminates = false := by
    rcases inner with rfl | inner
    · exact ⟨.refl e₁, off⟩
    · exact retains_of_eliminateUnder off allocated inner
  cases turnOff with
  | false => exact kept
  | true => exact ⟨⟨kept.1.eliminated, kept.1.eliminations⟩, rfl⟩

/-- The search, if there is one, leaves alone what was prepared for it. -/
theorem marks_of_searchPrepared {ready : Bool} (h : Represents f e) (answer : e.consistent = ready)
    (allocated : ∀ a ∈ as, a.var < n)
    (searched : (if ready then e.searchModel as else pure (false, e)) = .ok (sat, e')) :
    e'.marks = e.marks ∧ e'.eliminations = e.eliminations ∧ e'.eliminates = e.eliminates := by
  cases ready with
  | false =>
    cases searched
    exact ⟨rfl, rfl, rfl⟩
  | true => exact ((h.searchModel_keeps answer allocated).of_eq searched).2

/-- What is prepared for a search is not eliminated by the search. -/
theorem retains_of_searchPrepared {ready : Bool} (h : Represents f e) (answer : e.consistent = ready)
    (allocated : ∀ a ∈ as, a.var < n)
    (searched : (if ready then e.searchModel as else pure (false, e)) = .ok (sat, e')) :
    e.Retains e' ∧ e'.eliminates = e.eliminates := by
  obtain ⟨marks, eliminations, eliminates⟩ := marks_of_searchPrepared h answer allocated searched
  exact ⟨⟨congrArg Marks.eliminated marks, eliminations⟩, eliminates⟩

namespace Represents

variable (h : Represents f e)

include h

theorem retains_of_eliminate (settled : e.Settled) {turnOff : Bool}
    (eliminated : e.eliminate turnOff = .ok (ok, e')) : e.Retains e' ∧ e'.Settled := by
  rcases settled with off | contradicted
  · rw [eliminate_of_off off eliminated]
    exact ⟨⟨rfl, rfl⟩, .inl off⟩
  · rw [h.eliminate_of_contradicted contradicted] at eliminated
    cases eliminated
    exact ⟨.refl e, .inr contradicted⟩

theorem retains_of_solve (settled : e.Settled) (allocated : ∀ a ∈ as, a.var < n)
    {simplify turnOff : Bool} (solved : e.solve as simplify turnOff = .ok (sat, e')) :
    e.Retains e' ∧ e'.Settled := by
  cases consistent : e.consistent with
  | false =>
    rw [solve_of_contradicted consistent] at solved
    cases solved
    exact ⟨⟨rfl, rfl⟩, .inr consistent⟩
  | true =>
    have off : e.eliminates = false := by
      refine settled.resolve_right fun contradicted => ?_
      cases contradicted.symm.trans consistent
    obtain ⟨ready, e₁, prepared, h₁, answer, searched⟩ :=
      h.exists_of_solve consistent allocated solved
    obtain ⟨first, off₁⟩ := retains_of_prepare (e := { e with model := #[] }) off allocated prepared
    obtain ⟨second, same⟩ := retains_of_searchPrepared h₁ answer allocated searched
    have start : e.Retains { e with model := #[] } := ⟨rfl, rfl⟩
    exact ⟨(start.trans first).trans second, .inl (same.trans off₁)⟩

/-! ## Turning elimination off -/

theorem settled_of_eliminate (eliminated : e.eliminate true = .ok (ok, e')) : e'.Settled := by
  unfold Engine.eliminate at eliminated
  obtain ⟨⟨ok₁, e₁⟩, simplified, rest⟩ := bind_eq_ok_iff.1 eliminated
  obtain ⟨-, answer, -⟩ := h.simplify.of_eq simplified
  cases ok₁ with
  | false =>
    cases rest
    exact .inr answer
  | true =>
    change (if (!e₁.eliminates) = true then _ else _) = _ at rest
    split at rest
    · next off =>
      cases rest
      exact .inl (by simpa using off)
    · obtain ⟨⟨ok₂, e₂⟩, -, result⟩ := bind_eq_ok_iff.1 rest
      cases result
      exact .inl rfl

theorem settled_of_solve (allocated : ∀ a ∈ as, a.var < n) {simplify : Bool}
    (solved : e.solve as simplify true = .ok (sat, e')) : e'.Settled := by
  cases consistent : e.consistent with
  | false =>
    rw [solve_of_contradicted consistent] at solved
    cases solved
    exact .inr consistent
  | true =>
    obtain ⟨ready, e₁, prepared, h₁, answer, searched⟩ :=
      h.exists_of_solve consistent allocated solved
    obtain ⟨-, same⟩ := retains_of_searchPrepared h₁ answer allocated searched
    obtain ⟨e₂, -, rfl⟩ := exists_of_prepare prepared
    exact .inl same

end Represents

end Engine

end IncrementalSat
