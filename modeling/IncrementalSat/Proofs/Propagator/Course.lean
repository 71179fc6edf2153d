import IncrementalSat.Proofs.Propagator.Simplification

/-!
# The course of cleaning up

Clauses are removed one after the other. Simplifying propagates, goes from clause to clause, and then
closes the holes. Each propagator that is come to on the way is well-formed.
-/
namespace IncrementalSat

namespace Propagator

variable {n : Nat} {p q : Propagator n} {is : List Nat}

/-- The first of the clauses at these indices were removed, which left `q`. -/
def Drops (p : Propagator n) (is : List Nat) (q : Propagator n) : Prop :=
  ∃ done, done <+: is ∧ removeAll done p = .ok q

theorem Drops.wellFormed (drops : p.Drops is q) (h : p.WellFormed) (root : p.trail.level = 0)
    (nodup : is.Nodup) (live : ∀ i ∈ is, ∃ c, p.store.Has i c) : q.WellFormed := by
  obtain ⟨done, part, removed⟩ := drops
  have without := h.removeAll (nodup.sublist part.sublist) fun i hi => by
    obtain ⟨c, hc⟩ := live i (part.subset hi)
    exact ⟨c, hc, fun above => absurd root above⟩
  exact (without.of_eq removed).wellFormed

/-- Simplifying comes to `q`. -/
inductive Simplifies (p : Propagator n) : Propagator n → Prop
  | propagated {conflict : Option Nat} {q : Propagator n} (consistent : p.consistent = true)
      (propagated : p.propagate = .ok (conflict, q)) : Simplifies p q
  | cleaned {q r : Propagator n} {done : List (Nat × Clause n)} (consistent : p.consistent = true)
      (propagated : p.propagate = .ok (none, q)) (part : done <+: q.store.live)
      (cleaned : simplifyClauses done q = .ok r) : Simplifies p r
  | simplified {ok : Bool} {q : Propagator n} (simplified : p.simplify = .ok (ok, q)) :
      Simplifies p q

theorem Simplifies.wellFormed (simplifies : p.Simplifies q) (h : p.WellFormed)
    (root : p.trail.level = 0) : q.WellFormed := by
  cases simplifies with
  | propagated _ propagated => exact ((propagate_spec h).of_eq propagated).2.1
  | @cleaned r _ done _ propagated part cleaned =>
    obtain ⟨step, wf, all⟩ := (propagate_spec h).of_eq propagated
    have found : ∀ x ∈ done, r.store.Has x.1 x.2 := fun x hx =>
      (r.store.mem_live_iff x.1 x.2).1 (part.subset hx)
    have nodup : (done.map (·.1)).Nodup := r.store.nodup_live.sublist (part.sublist.map _)
    exact ((simplifyClauses_spec done r wf (step.level.trans root) all found nodup).of_eq cleaned).1
  | simplified simplified => exact ((simplify_spec h root).of_eq simplified).wellFormed

end Propagator

end IncrementalSat
