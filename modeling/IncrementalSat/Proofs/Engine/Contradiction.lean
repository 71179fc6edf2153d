import IncrementalSat.Proofs.Engine.Solving

/-!
# Contradictions that show

A contradiction that propagation or a search finds shows in what the engine states: no valuation
satisfies the fixed literals and the problem clauses afterwards. Two others need not show. A clause
all of whose literals are false for good is not stored; and while a variable is being eliminated its
clauses are gone before all of their resolvents are there.
-/
namespace IncrementalSat

variable {n : Nat}

/-- No valuation satisfies what is required. -/
def Propagator.Refuted (p : Propagator n) : Prop := ∀ σ, ¬ p.Requires σ

theorem Trail.eval_of_falsifies {t : Trail n} {l : Lit n} (h : t.Falsifies l.toLiteral) :
    t.eval l = some false := by
  obtain ⟨m, same, false⟩ := h
  have eq : some m = some l := by
    rw [← Lit.ofLiteral?_toLiteral m, ← Lit.ofLiteral?_toLiteral l, same]
  rwa [Option.some.inj eq] at false

namespace Propagator

variable {p p' : Propagator n} {lits : List (Literal Nat)} {ok : Bool}

/-- A clause without a literal left only leaves the contradiction behind. -/
theorem Addition.eq_of_falsified (h : Addition p lits ok p') (consistent : p.consistent = true)
    (falsified : ∀ l ∈ lits, p.trail.Falsifies l) : p' = { p with consistent := false } := by
  cases h with
  | refused inconsistent =>
    rw [consistent] at inconsistent
    cases inconsistent
  | tautology _ opposite =>
    obtain ⟨l, hl, opposite⟩ := opposite
    obtain ⟨m, rfl, value⟩ := falsified l hl
    have value' := Trail.eval_of_falsifies (l := m.neg) (falsified _ opposite)
    rw [Trail.eval_neg_eq_false_iff, value] at value'
    cases value'
  | redundant _ l mem holds =>
    rw [Trail.eval_of_falsifies (falsified _ mem)] at holds
    cases holds
  | contradiction => rfl
  | fact _ l mem fresh =>
    rw [Trail.eval_of_falsifies (falsified _ mem)] at fresh
    cases fresh
  | stored _ c _ mem fresh =>
    have first : c.first ∈ c.lits := by simp [Clause.lits]
    have value := fresh c.first first
    rw [Trail.eval_of_falsifies (falsified _ (mem c.first first))] at value
    cases value

end Propagator

namespace Engine

variable {e e' : Engine n} {f : Formula} {lits as : List (Literal Nat)} {ok sat : Bool}

/-- If the formula is unsatisfiable, so is what is stated for it, as long as nothing was lost. -/
theorem Represents.refuted_of_preserves (h : Represents f e) (consistent : e.consistent = true)
    {p : Propagator n} (kept : e.toPropagator.Preserves p) (unsat : f.Unsatisfiable) : p.Refuted :=
  fun σ required => unsat (e.restore σ) (h.covers consistent σ (kept.requires required))

/-- A clause without a literal left is not stored. -/
theorem Represents.toPropagator_of_falsified (h : Represents f e) (consistent : e.consistent = true)
    (falsified : ∀ l ∈ lits, e.trail.Falsifies l) (added : e.addClause lits = .ok (ok, e')) :
    e'.toPropagator = { e.toPropagator with consistent := false } := by
  have allocated : ∀ l ∈ lits, l.var < n := by
    intro l hl
    obtain ⟨m, rfl, -⟩ := falsified l hl
    exact m.var.isLt
  obtain ⟨⟨ok, p⟩, step, result⟩ := bind_eq_ok_iff.1 added
  cases result
  have addition := (Propagator.addClause_spec h.wellFormed.propagator h.root allocated).of_eq step
  exact addition.eq_of_falsified consistent falsified

/-- A clause that has a literal left and leads to a contradiction does so by propagation. -/
theorem Represents.refuted_of_addClause (h : Represents f e) (consistent : e.consistent = true)
    (allocated : ∀ l ∈ lits, l.var < n)
    (usable : ∀ l ∈ lits, ∀ x ∈ e.eliminations, x.var.val ≠ l.var)
    (left : ∃ l ∈ lits, ¬ e.trail.Falsifies l) (added : e.addClause lits = .ok (ok, e'))
    (contradicted : e'.consistent = false) : e'.Refuted := by
  obtain ⟨represents, answer, -⟩ := (h.addClause allocated usable).of_eq added
  have wf := h.wellFormed.propagator
  obtain ⟨⟨ok, p⟩, step, result⟩ := bind_eq_ok_iff.1 added
  cases result
  have addition := (Propagator.addClause_spec wf h.root allocated).of_eq step
  intro σ required
  have before := h.covers consistent σ ((addition.preserves wf h.root).requires required)
  obtain ⟨l, hl, holds⟩ :=
    (addition.accounts wf h.root consistent (.inr left)).holds required
  refine represents.refuted contradicted (e.restore σ) (List.forall_mem_cons.2 ⟨?_, before⟩)
  exact ⟨l, hl, (e.holds_restore_iff σ (usable l hl)).2 holds⟩

theorem Represents.refuted_of_simplify (h : Represents f e) (consistent : e.consistent = true)
    (simplified : e.simplify = .ok (ok, e')) (contradicted : e'.consistent = false) :
    e'.Refuted := by
  have represents := (h.simplify.of_eq simplified).1
  obtain ⟨⟨ok, p⟩, step, result⟩ := bind_eq_ok_iff.1 simplified
  cases result
  have cleaned := (Propagator.simplify_spec h.wellFormed.propagator h.root).of_eq step
  exact h.refuted_of_preserves consistent cleaned.refines.preserves (represents.refuted contradicted)

theorem Represents.refuted_of_searchModel (h : Represents f e) (consistent : e.consistent = true)
    (allocated : ∀ a ∈ as, a.var < n) (searched : e.searchModel as = .ok (sat, e'))
    (contradicted : e'.consistent = false) : e'.Refuted := by
  have represents := ((searchModel_spec h consistent allocated).of_eq searched).represents
  have unsat := represents.refuted contradicted
  unfold searchModel at searched
  obtain ⟨e₁, prepared, searched⟩ := bind_eq_ok_iff.1 searched
  obtain ⟨⟨verdict, e₂⟩, searched, result⟩ := bind_eq_ok_iff.1 searched
  obtain ⟨h₁, same, limit, -⟩ := (prepareSearch_spec h).of_eq prepared
  have consistent₁ := same.trans consistent
  have ended :=
    (search_spec h₁.wellFormed h₁.root consistent₁ limit allocated).of_eq searched
  have wf := ended.wellFormed.propagator
  have kept : e₁.toPropagator.Preserves (e₂.toPropagator.backtrack 0) :=
    (ended.refines.trans (.backtrack wf.trail 0)).preserves
  have refuted := h₁.refuted_of_preserves consistent₁ kept unsat
  unfold retreat at result
  dsimp only at result
  rw [wf.retreat] at result
  cases verdict <;> (cases result; exact refuted)

/-! ## Contradictions while variables are eliminated -/

section

variable {v : Fin n} {table table' learntTable : Occurrences n}

/-- Trying to eliminate a variable changes no count, and a contradiction is met only once the
variable has been eliminated. The clauses removed with it were stored. -/
theorem eliminations_of_tryEliminate
    (tried : e.tryEliminate v table learntTable = .ok (ok, table', e')) : e'.stats = e.stats ∧
      ((e'.eliminations = e.eliminations ∧ ok = true) ∨
        ∃ x, e'.eliminations = x :: e.eliminations ∧
          ∀ lits ∈ x.clauses, ∃ i c, e.store.Has i c ∧ c.lits = lits) := by
  unfold tryEliminate at tried
  split at tried
  · cases tried
    exact ⟨rfl, .inl ⟨rfl, rfl⟩⟩
  · obtain ⟨positive, -, tried⟩ := bind_eq_ok_iff.1 tried
    obtain ⟨negative, -, tried⟩ := bind_eq_ok_iff.1 tried
    dsimp only at tried
    split at tried
    · cases tried
      exact ⟨rfl, .inl ⟨rfl, rfl⟩⟩
    · obtain ⟨as, fetched, tried⟩ := bind_eq_ok_iff.1 tried
      obtain ⟨bs, fetched', tried⟩ := bind_eq_ok_iff.1 tried
      split at tried
      · cases tried
        exact ⟨rfl, .inl ⟨rfl, rfl⟩⟩
      · unfold eliminateVar at tried
        obtain ⟨p, -, tried⟩ := bind_eq_ok_iff.1 tried
        obtain ⟨positive, -, tried⟩ := bind_eq_ok_iff.1 tried
        obtain ⟨negative, -, tried⟩ := bind_eq_ok_iff.1 tried
        obtain ⟨q, -, tried⟩ := bind_eq_ok_iff.1 tried
        obtain ⟨⟨ok, table, r⟩, -, result⟩ := bind_eq_ok_iff.1 tried
        cases result
        refine ⟨rfl, .inr ⟨⟨v, as ++ bs⟩, rfl, List.forall_mem_append.2 ⟨?_, ?_⟩⟩⟩
        · exact Propagator.stored_of_fetchAll fetched
        · exact Propagator.stored_of_fetchAll fetched'

theorem eliminations_of_eliminateEach {vs : List (Fin n)}
    (tried : eliminateEach learntTable vs table e = .ok (ok, e')) : e'.stats = e.stats ∧
      e.eliminations.length ≤ e'.eliminations.length ∧
        (ok = false → e.eliminations.length < e'.eliminations.length) := by
  induction vs generalizing table e with
  | nil =>
    cases tried
    exact ⟨rfl, Nat.le_refl _, nofun⟩
  | cons v vs ih =>
    unfold eliminateEach at tried
    obtain ⟨⟨ok₁, table₁, e₁⟩, first, rest⟩ := bind_eq_ok_iff.1 tried
    obtain ⟨stats, outcome⟩ := eliminations_of_tryEliminate first
    cases ok₁ with
    | false =>
      cases rest
      obtain ⟨x, more, -⟩ := outcome.resolve_left fun fine => Bool.false_ne_true fine.2
      have longer : e.eliminations.length < e'.eliminations.length := by simp [more]
      exact ⟨stats, Nat.le_of_lt longer, fun _ => longer⟩
    | true =>
      obtain ⟨stats', longer, strictly⟩ := ih rest
      have first : e.eliminations.length ≤ e₁.eliminations.length := by
        rcases outcome with ⟨same, -⟩ | ⟨x, more, -⟩
        · rw [same]
        · simp [more]
      exact ⟨stats'.trans stats, Nat.le_trans first longer,
        fun failed => Nat.lt_of_le_of_lt first (strictly failed)⟩

end

/-- Variables were eliminated but no conflict was counted. -/
def EliminatesOnly {m : Nat} (e : Engine n) (e' : Engine m) : Prop :=
  e'.stats = e.stats ∧ e.eliminations.length < e'.eliminations.length

theorem EliminatesOnly.of_eq {e₁ e₂ e₃ : Engine n} (h : e₁.EliminatesOnly e₂)
    (stats : e₁.stats = e.stats) (eliminations : e₁.eliminations = e.eliminations)
    (stats' : e₃.stats = e₂.stats) (eliminations' : e₃.eliminations = e₂.eliminations) :
    e.EliminatesOnly e₃ :=
  ⟨(stats'.trans h.1).trans stats, by rw [← eliminations, eliminations']; exact h.2⟩

theorem Represents.refuted_of_eliminate (h : Represents f e) (consistent : e.consistent = true)
    {turnOff : Bool} (eliminated : e.eliminate turnOff = .ok (ok, e'))
    (contradicted : e'.consistent = false) : e'.Refuted ∨ e.EliminatesOnly e' := by
  unfold Engine.eliminate at eliminated
  obtain ⟨⟨ok₁, e₁⟩, simplified, rest⟩ := bind_eq_ok_iff.1 eliminated
  obtain ⟨h₁, answer, frame⟩ := h.simplify.of_eq simplified
  cases ok₁ with
  | false =>
    cases rest
    exact .inl (h.refuted_of_simplify consistent simplified contradicted)
  | true =>
    change (if (!e₁.eliminates) = true then _ else _) = _ at rest
    split at rest
    · cases rest
      rw [answer] at contradicted
      cases contradicted
    · obtain ⟨⟨ok₂, e₂⟩, each, result⟩ := bind_eq_ok_iff.1 rest
      obtain ⟨-, answer', -⟩ := (eliminateVars_spec h₁ answer).of_eq each
      obtain ⟨stats, -, longer⟩ := eliminations_of_eliminateEach each
      have frame' : e₁.stats = e.stats ∧ e₁.eliminations = e.eliminations := by
        rw [frame]
        exact ⟨rfl, rfl⟩
      have failed : ok₂ = false := by
        rw [← answer', ← contradicted]
        cases turnOff <;> (cases result; rfl)
      have only : e.EliminatesOnly e₂ :=
        EliminatesOnly.of_eq ⟨stats, longer failed⟩ frame'.1 frame'.2 rfl rfl
      cases turnOff <;> (cases result; exact .inr only)

/-- Freezing variables for the time being makes no difference. -/
theorem Represents.refuted_of_eliminateUnder (h : Represents f e) (consistent : e.consistent = true)
    (allocated : ∀ a ∈ as, a.var < n) {turnOff : Bool}
    (eliminated : e.eliminateUnder as turnOff = .ok (ok, e')) (contradicted : e'.consistent = false) :
    e'.Refuted ∨ e.EliminatesOnly e' := by
  unfold eliminateUnder at eliminated
  obtain ⟨⟨vs, e₁⟩, froze, rest⟩ := bind_eq_ok_iff.1 eliminated
  obtain ⟨⟨ok₂, e₂⟩, inner, result⟩ := bind_eq_ok_iff.1 rest
  obtain ⟨before, -⟩ := (freezeAll_spec as e allocated).of_eq froze
  have after := refrozen_unfreezeAll vs e₂
  cases result
  have consistent₁ : e₁.consistent = true := by rw [before]; exact consistent
  have contradicted₂ : e₂.consistent = false := by rw [after] at contradicted; exact contradicted
  rcases (before.represents h).refuted_of_eliminate consistent₁ inner contradicted₂ with shown | only
  · left
    rw [after]
    exact shown
  · right
    exact only.of_eq (by rw [before]) (by rw [before]) (by rw [after]) (by rw [after])

/-- If a solve leads to a contradiction, then the contradiction shows, or the solve did nothing but
eliminate variables. -/
theorem Represents.refuted_of_solve (h : Represents f e) (consistent : e.consistent = true)
    (allocated : ∀ a ∈ as, a.var < n) {simplify turnOff : Bool}
    (solved : e.solve as simplify turnOff = .ok (sat, e')) (contradicted : e'.consistent = false) :
    e'.Refuted ∨ e.EliminatesOnly e' := by
  have cleared := h.clearModel
  unfold solve at solved
  dsimp only at solved
  rw [consistent] at solved
  obtain ⟨⟨ready, e₁⟩, prepared, rest⟩ := bind_eq_ok_iff.1 solved
  obtain ⟨h₁, answer, -⟩ :=
    (prepare_spec cleared consistent allocated simplify turnOff).of_eq prepared
  cases ready with
  | true => exact .inl (h₁.refuted_of_searchModel answer allocated rest contradicted)
  | false =>
    cases rest
    unfold prepare at prepared
    cases simplify with
    | false => cases prepared
    | true =>
      change (_ >>= _) = _ at prepared
      obtain ⟨⟨ready, e₂⟩, inner, result⟩ := bind_eq_ok_iff.1 prepared
      have same : e₁.toPropagator = e₂.toPropagator ∧ e₁.stats = e₂.stats ∧
          e₁.eliminations = e₂.eliminations := by
        cases turnOff <;> (cases result; exact ⟨rfl, rfl, rfl⟩)
      obtain ⟨propagator, stats, eliminations⟩ := same
      have contradicted₂ : e₂.consistent = false := by rw [← propagator]; exact contradicted
      rcases cleared.refuted_of_eliminateUnder consistent allocated inner contradicted₂ with
        shown | only
      · left
        rw [propagator]
        exact shown
      · exact .inr (only.of_eq rfl rfl stats eliminations)

/-! ## After a contradiction -/

section

variable (h : Represents f e) (contradicted : e.consistent = false)

include contradicted

theorem solve_of_contradicted (as : List (Literal Nat)) (simplify turnOff : Bool) :
    e.solve as simplify turnOff = .ok (false, { e with model := #[] }) := by
  simp [solve, contradicted, pure, Except.pure]

include h

theorem Represents.addClause_of_contradicted (lits : List (Literal Nat)) :
    e.addClause lits = .ok (false, e) := by
  simp [Engine.addClause, propagating, Propagator.addClause, Propagator.requireRoot, h.root,
    contradicted, bind, Except.bind, pure, Except.pure]

theorem Represents.simplify_of_contradicted : e.simplify = .ok (false, e) := by
  simp [Engine.simplify, propagating, Propagator.simplify, Propagator.requireRoot, h.root,
    contradicted, bind, Except.bind, pure, Except.pure]

theorem Represents.eliminate_of_contradicted (turnOff : Bool) :
    e.eliminate turnOff = .ok (false, e) := by
  simp [Engine.eliminate, h.simplify_of_contradicted contradicted, bind, Except.bind, pure,
    Except.pure]

end

end Engine

end IncrementalSat
