import IncrementalSat.Proofs.Elimination.Occurrences
import IncrementalSat.Proofs.Propagator.Addition

/-!
# Adding resolvents

The resolvents of a variable are added one by one, and the clauses stored for them are recorded in
the occurrence table. What is said afterwards is what was said before together with the resolvents.
-/
namespace IncrementalSat

namespace Propagator

variable {n : Nat} {p p' : Propagator n} {ok : Bool} {σ : Valuation}

/-! ## Fetching clauses -/

/-- Live clauses can be fetched all at once. -/
theorem fetchAll_spec {is : List Nat} (live : ∀ i ∈ is, ∃ c, p.store.Has i c) :
    Yields (p.fetchAll is) fun cs =>
      ∀ lits, lits ∈ cs ↔ ∃ i ∈ is, ∃ c, p.store.Has i c ∧ c.lits = lits := by
  induction is with
  | nil => exact Yields.ok (by simp)
  | cons i is ih =>
    obtain ⟨c, hc⟩ := live i (by simp)
    unfold fetchAll
    rw [hc.fetch]
    refine (ih fun j hj => live j (List.mem_cons_of_mem _ hj)).bind ?_
    intro cs mem
    refine Yields.pure fun lits => ?_
    rw [List.mem_cons, mem]
    constructor
    · rintro (rfl | ⟨j, hj, found⟩)
      · exact ⟨i, by simp, c, hc, rfl⟩
      · exact ⟨j, List.mem_cons_of_mem _ hj, found⟩
    · rintro ⟨j, hj, d, hd, rfl⟩
      rcases List.mem_cons.1 hj with rfl | hj
      · exact .inl (by rw [hd.unique hc])
      · exact .inr ⟨j, hj, d, hd, rfl⟩

/-- Clauses that are fetched are stored. -/
theorem stored_of_fetchAll {is : List Nat} {cs : List (List (Lit n))}
    (fetched : p.fetchAll is = .ok cs) : ∀ lits ∈ cs, ∃ i c, p.store.Has i c ∧ c.lits = lits := by
  induction is generalizing cs with
  | nil =>
    cases fetched
    exact nofun
  | cons i is ih =>
    obtain ⟨c, first, others⟩ := bind_eq_ok_iff.1 fetched
    obtain ⟨ds, rest, result⟩ := bind_eq_ok_iff.1 others
    cases result
    exact List.forall_mem_cons.2 ⟨⟨i, c, ClauseStore.has_of_fetch first, rfl⟩, ih rest⟩

/-! ## Adding resolvents -/

/-- Adding a clause stores at most that clause. -/
theorem Addition.store {lits : List (Literal Nat)} (h : Addition p lits ok p') (wf : p.WellFormed)
    (root : p.trail.level = 0) : p.store.Matches Clause.Reordered p'.store ∨
      ∃ c : Clause n, c.learnt = false ∧ (c.lits.map (·.var)).Nodup ∧
        (∀ l ∈ c.lits, l.toLiteral ∈ lits) ∧ p'.store = p.store.push c := by
  cases h with
  | refused | tautology | redundant => exact .inl (.refl Clause.Reordered.refl _)
  | contradiction => exact .inl (.refl Clause.Reordered.refl _)
  | fact _ l _ fresh _ conflict p' propagated =>
    obtain ⟨step, -⟩ := (propagate_spec (wf.assign_root root fresh .root)).of_eq propagated
    exact .inl step.store
  | stored _ c problem mem _ distinct => exact .inr ⟨c, problem, distinct, mem, rfl⟩

/-- What adding resolvents leads to. -/
structure Enriched (p : Propagator n) (rs : List (List (Lit n))) (ok : Bool)
    (table : Occurrences n) (p' : Propagator n) : Prop where
  wellFormed : p'.WellFormed
  root : p'.trail.level = 0
  consistent : p'.consistent = ok
  done : ok = true → p'.head = p'.trail.size
  sound : ∀ σ, p.Valid σ → (∀ r ∈ rs, Lit.AnyHolds σ r) → p'.Valid σ ∧ ok = true
  preserves : p.Preserves p'
  added : ok = true → ∀ σ, p'.Requires σ → ∀ r ∈ rs, Lit.AnyHolds σ r
  occurs : ∀ v, p'.Occurs v → p.Occurs v ∨ ∃ r ∈ rs, ∃ l ∈ r, l.var = v
  problems : ok = true → table.Covers p'.store false
  learnts : ∀ learntOccurs : Occurrences n, learntOccurs.Covers p.store true →
    learntOccurs.Covers p'.store true

theorem clauseHolds_map_iff (σ : Valuation) (r : List (Lit n)) :
    Formula.ClauseHolds σ (r.map Lit.toLiteral) ↔ Lit.AnyHolds σ r := by
  simp [Formula.ClauseHolds, Lit.AnyHolds, Lit.holds_toLiteral_iff]

variable {r : List (Lit n)} {rs : List (List (Lit n))} {table : Occurrences n}

theorem Addition.occurs_map (h : Addition p (r.map Lit.toLiteral) ok p') (wf : p.WellFormed)
    (root : p.trail.level = 0) {v : Fin n} (hv : p'.Occurs v) :
    p.Occurs v ∨ ∃ l ∈ r, l.var = v := by
  refine (h.occurs wf root hv).imp_right ?_
  rintro ⟨l, hl, same⟩
  obtain ⟨m, hm, rfl⟩ := List.mem_map.1 hl
  exact ⟨m, hm, Fin.ext same⟩

/-- Adding a clause stores no learnt clause. -/
theorem Addition.covers {lits : List (Literal Nat)} (h : Addition p lits ok p') (wf : p.WellFormed)
    (root : p.trail.level = 0) (covers : table.Covers p.store true) :
    table.Covers p'.store true := by
  rcases h.store wf root with same | ⟨c, problem, -, -, pushed⟩
  · exact covers.of_matches same
  · rw [pushed]
    exact covers.push (by simp [problem])

/-- One more resolvent, added before the others. -/
theorem Enriched.cons {q : Propagator n} (h : p.WellFormed) (root : p.trail.level = 0)
    (step : Addition p (r.map Lit.toLiteral) true q) (rest : Enriched q rs ok table p') :
    Enriched p (r :: rs) ok table p' where
  wellFormed := rest.wellFormed
  root := rest.root
  consistent := rest.consistent
  done := rest.done
  sound := by
    intro σ valid holds
    have first := step.sound h root valid ((clauseHolds_map_iff σ r).2 (holds r List.mem_cons_self))
    exact rest.sound σ first.1 fun s hs => holds s (List.mem_cons_of_mem _ hs)
  preserves := (step.preserves h root).trans rest.preserves
  added := by
    intro fine σ required s hs
    rcases List.mem_cons.1 hs with rfl | hs
    · have first := (step.complete h root (rest.preserves.requires required)).2
      exact (clauseHolds_map_iff σ s).1 first
    · exact rest.added fine σ required s hs
  occurs := by
    intro v hv
    rcases rest.occurs v hv with early | ⟨s, hs, l, hl, same⟩
    · refine (step.occurs_map h root early).imp_right ?_
      rintro ⟨l, hl, same⟩
      exact ⟨r, List.mem_cons_self, l, hl, same⟩
    · exact .inr ⟨s, List.mem_cons_of_mem _ hs, l, hl, same⟩
  problems := rest.problems
  learnts := fun learntOccurs covers => rest.learnts learntOccurs (step.covers h root covers)

/-- A resolvent that leads to a contradiction. -/
theorem Enriched.contradiction (h : p.WellFormed) (root : p.trail.level = 0)
    (consistent : p.consistent = true) (step : Addition p (r.map Lit.toLiteral) false p') :
    Enriched p (r :: rs) false table p' where
  wellFormed := (step.wellFormed h root).1
  root := (step.wellFormed h root).2
  consistent := step.consistent_eq
  done := by simp
  sound := by
    intro σ valid holds
    have first := step.sound h root valid ((clauseHolds_map_iff σ r).2 (holds r List.mem_cons_self))
    exact ⟨first.1, first.2 consistent⟩
  preserves := step.preserves h root
  added := by simp
  occurs := by
    intro v hv
    refine (step.occurs_map h root hv).imp_right ?_
    rintro ⟨l, hl, same⟩
    exact ⟨r, List.mem_cons_self, l, hl, same⟩
  problems := by simp
  learnts := fun learntOccurs covers => step.covers h root covers

/-- The resolvents are added up to a contradiction, and the table goes along. -/
theorem addResolvents_spec (rs : List (List (Lit n))) (table : Occurrences n) (p : Propagator n)
    (h : p.WellFormed) (root : p.trail.level = 0) (consistent : p.consistent = true)
    (done : p.head = p.trail.size) (covers : table.Covers p.store false) :
    Yields (addResolvents rs table p) fun (ok, table', p') => Enriched p rs ok table' p' := by
  induction rs generalizing table p with
  | nil => exact Yields.ok ⟨h, root, consistent, fun _ => done, fun σ valid _ => ⟨valid, rfl⟩,
      .refl p, by simp, fun v hv => .inl hv, fun _ => covers, fun _ hl => hl⟩
  | cons r rs ih =>
    unfold addResolvents
    refine (addClause_spec h root fun _ => Lit.var_lt_of_mem_map).bind ?_
    rintro ⟨ok, q⟩ step
    cases ok with
    | false => exact Yields.ok (.contradiction h root consistent step)
    | true =>
      obtain ⟨wf, root'⟩ := step.wellFormed h root
      have done' := step.done h root (fun _ => done) step.consistent_eq
      have rest : ∀ table', table'.Covers q.store false →
          Yields (addResolvents rs table' q) fun (ok, table'', p') =>
            Enriched p (r :: rs) ok table'' p' := fun table' covers' =>
        (ih table' q wf root' step.consistent_eq done' covers').mono fun _ later =>
          later.cons h root step
      change Yields (if q.store.size ≤ p.store.size then _ else _) _
      rcases step.store h root with same | ⟨c, problem, distinct, -, pushed⟩
      · rw [if_pos (Nat.le_of_eq same.size_eq)]
        exact rest table (covers.of_matches same)
      · have has : q.store.Has p.store.size c := by
          rw [pushed]
          exact (p.store.has_push_iff ..).2 (.inr ⟨rfl, rfl⟩)
        rw [if_neg (Nat.not_le.2 has.lt_size), has.fetch]
        refine rest _ ?_
        rw [pushed]
        exact covers.record problem distinct.of_map

end Propagator

end IncrementalSat
