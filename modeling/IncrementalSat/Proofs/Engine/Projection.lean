import IncrementalSat.Proofs.Engine.Representation
import IncrementalSat.Proofs.Propagator.Growth

/-!
# What an engine says about variables that were kept

The fixed literals and the problem clauses of an engine mention no eliminated variable, so they say
nothing about those. About all other variables they say exactly what the formula says: they hold
under a valuation if the formula holds under one that differs from it on eliminated variables only.
-/
namespace IncrementalSat

variable {n : Nat}

namespace Propagator

variable {p : Propagator n} {σ : Valuation}

/-- The fixed literals as clauses of their own, and the problem clauses in storage order. -/
def stated (p : Propagator n) : List (List (Lit n)) := p.fixed.map ([·]) ++ p.problemClauses

theorem mem_problemClauses_iff (p : Propagator n) (ls : List (Lit n)) :
    ls ∈ p.problemClauses ↔ ∃ i c, p.store.Has i c ∧ c.learnt = false ∧ c.lits = ls := by
  unfold problemClauses
  simp only [List.mem_filterMap, Prod.exists, ClauseStore.mem_live_iff]
  constructor
  · rintro ⟨i, c, hc, kept⟩
    cases kind : c.learnt with
    | true => simp [kind] at kept
    | false => exact ⟨i, c, hc, kind, by simpa [kind] using kept⟩
  · rintro ⟨i, c, hc, kind, rfl⟩
    exact ⟨i, c, hc, by simp [kind]⟩

/-- A new variable leaves what is stated as it is. -/
theorem stated_grow (p : Propagator n) : p.grow.stated = p.stated.map fun c => c.map Lit.grow := by
  have problems : p.grow.problemClauses = p.problemClauses.map fun c => c.map Lit.grow := by
    unfold problemClauses
    change p.store.grow.live.filterMap _ = _
    rw [p.store.live_grow, List.filterMap_map, List.map_filterMap]
    apply List.filterMap_congr
    intro (i, c) _
    have same : c.grow.learnt = c.learnt := rfl
    cases kind : c.learnt <;> simp [same, kind, Clause.lits_grow]
  have fixed : p.grow.fixed = p.fixed.map Lit.grow := Array.toList_map
  simp [stated, problems, fixed]

/-- What is required of models is that they satisfy what is stated. -/
theorem requires_iff (wf : p.trail.WellFormed) (root : p.trail.level = 0) :
    p.Requires σ ↔ ∀ c ∈ p.stated, Lit.AnyHolds σ c := by
  simp only [stated, List.forall_mem_append, List.forall_mem_map, mem_problemClauses_iff,
    mem_fixed_iff wf root]
  constructor
  · rintro ⟨clauses, facts⟩
    refine ⟨fun l fixed => ⟨l, List.mem_singleton_self l, facts l fixed⟩, ?_⟩
    rintro _ ⟨i, c, hc, kind, rfl⟩
    exact clauses i c hc kind
  · rintro ⟨facts, clauses⟩
    refine ⟨fun i c hc kind => clauses c.lits ⟨i, c, hc, kind, rfl⟩, fun l fixed => ?_⟩
    obtain ⟨m, hm, holds⟩ := facts l fixed
    rwa [List.mem_singleton.1 hm] at holds

end Propagator

namespace Engine

variable {e : Engine n} {f : Formula} {σ τ : Valuation}

/-- The valuations differ on eliminated variables only. -/
def AgreeOnKept (e : Engine n) (σ τ : Valuation) : Prop :=
  ∀ k, (∀ v : Fin n, e.isEliminated v = true → v.val ≠ k) → τ k = σ k

/-- Nothing is required of eliminated variables. -/
theorem Hygienic.requires_of_agree (h : e.Hygienic) (agree : e.AgreeOnKept σ τ)
    (required : e.Requires τ) : e.Requires σ := by
  have same : ∀ l : Lit n, e.Occurs l.var → l.Holds τ → l.Holds σ := by
    intro l occurs holds
    have kept : ∀ v : Fin n, e.isEliminated v = true → v.val ≠ l.var.val := by
      intro v gone eq
      rw [Fin.ext eq] at gone
      exact h.absent l.var gone occurs
    exact (agree l.var kept).symm.trans holds
  constructor
  · intro i c hc kind
    obtain ⟨l, hl, holds⟩ := required.clauses i c hc kind
    exact ⟨l, hl, same l (.inl ⟨i, c, hc, l, hl, rfl⟩) holds⟩
  · intro l fixed
    exact same l (.inr ⟨l, fixed, rfl⟩) (required.facts l fixed)

/-- Undoing the eliminations changes eliminated variables only. -/
theorem Hygienic.agree_restore (h : e.Hygienic) (σ : Valuation) : e.AgreeOnKept σ (e.restore σ) := by
  intro k kept
  refine e.restore_of_ne σ fun x hx => kept x.var ?_
  exact (h.marked x.var).2 ⟨x, hx, rfl⟩

/-- As long as no contradiction is known, what is required is what the formula says about the
variables that were not eliminated. -/
theorem Represents.requires_iff (h : Represents f e) (consistent : e.consistent = true) :
    e.Requires σ ↔ ∃ τ, e.AgreeOnKept σ τ ∧ f.Holds τ := by
  constructor
  · intro required
    exact ⟨e.restore σ, h.hygienic.agree_restore σ, h.covers consistent σ required⟩
  · rintro ⟨τ, agree, holds⟩
    have valid := h.sound τ holds
    exact h.hygienic.requires_of_agree agree ⟨fun i c hc _ => valid.clauses i c hc, valid.facts⟩

end Engine

end IncrementalSat
