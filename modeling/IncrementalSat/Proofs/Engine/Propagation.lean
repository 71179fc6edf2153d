import IncrementalSat.Proofs.Elimination.Course
import IncrementalSat.Proofs.Engine.Course
import IncrementalSat.Proofs.Propagator.Fixpoint

/-!
# Where an engine propagates

A literal is propagated when it is all that remains of a clause, be it a caller's or a resolvent.
Apart from that, simplifying begins with a propagation, and so does every step of a search. In all of
these places the propagator is well-formed, so that what was propagated before has no consequences
left, and propagation makes up for the rest.
-/
namespace IncrementalSat

variable {n : Nat}

namespace Propagator

variable {p q : Propagator n} {ms : List (Lit n)}

/-- Adding the clause comes down to propagating `q`: a single literal of it remains. -/
structure AddsFact (p : Propagator n) (ms : List (Lit n)) (q : Propagator n) : Prop where
  root : p.trail.level = 0
  consistent : p.consistent = true
  apart : Literal.hasOppositeNeighbours (Literal.normalize (ms.map Lit.toLiteral)) = false
  remaining : ∃ l, p.trail.residue (Literal.normalize (ms.map Lit.toLiteral)) = .ok (some [l]) ∧
    q = p.assign l .root

/-- The clause is added by this propagation. -/
theorem AddsFact.addClause_eq (h : p.AddsFact ms q) : p.addClause (ms.map Lit.toLiteral) =
    q.propagate >>= fun (conflict, q) =>
      pure (conflict.isNone, { q with consistent := conflict.isNone }) := by
  obtain ⟨l, residue, rfl⟩ := h.remaining
  unfold addClause requireRoot
  rw [if_pos h.root]
  change (if (!p.consistent) = true then _ else _) = _
  rw [if_neg (by simp [h.consistent]), h.apart, if_neg Bool.false_ne_true, residue]
  rfl

theorem AddsFact.wellFormed (h : p.AddsFact ms q) (wf : p.WellFormed) : q.WellFormed := by
  obtain ⟨l, residue, rfl⟩ := h.remaining
  have allocated : ∀ m ∈ Literal.normalize (ms.map Lit.toLiteral), m.var < n := fun m hm =>
    Lit.var_lt_of_mem_map (Literal.mem_normalize_iff.1 hm)
  obtain ⟨-, fresh, -⟩ := (p.trail.residue_spec _ allocated).of_eq residue
  exact wf.assign_root h.root (fresh l List.mem_cons_self) .root

end Propagator

namespace Engine

variable {e : Engine n} {f : Formula} {p : Propagator n}

/-- An operation on the engine comes to propagate `p`. -/
inductive Propagates (e : Engine n) : Propagator n → Prop
  | adding {ms : List (Lit n)} {p : Propagator n} (fact : e.toPropagator.AddsFact ms p) :
      Propagates e p
  | simplifying (consistent : e.consistent = true) : Propagates e e.toPropagator
  | eliminating {r : List (Lit n)} {q p : Propagator n} (resolves : e.Resolves r q)
      (fact : q.AddsFact r p) : Propagates e p
  | preparing {as : List (Lit n)} {vs : List (Fin n)} {e₁ : Engine n} {r : List (Lit n)}
      {q p : Propagator n} (consistent : e.consistent = true)
      (froze : freezeAll (as.map Lit.toLiteral) { e with model := #[] } = .ok (vs, e₁))
      (resolves : e₁.Resolves r q) (fact : q.AddsFact r p) : Propagates e p
  | searching {as : List (Lit n)} {simplify turnOff restartDue : Bool} {start e' : Engine n}
      (begins : e.Begins (as.map Lit.toLiteral) simplify turnOff start)
      (reaches : Reaches (as.map Lit.toLiteral) start restartDue e') : Propagates e e'.toPropagator

theorem Represents.propagates (h : Represents f e) (propagates : e.Propagates p) :
    p.WellFormed := by
  cases propagates with
  | adding fact => exact fact.wellFormed h.wellFormed.propagator
  | simplifying => exact h.wellFormed.propagator
  | eliminating resolves fact => exact fact.wellFormed (h.resolves resolves).1
  | preparing _ froze resolves fact =>
    obtain ⟨same, -⟩ := (freezeAll_spec _ _ fun _ => Lit.var_lt_of_mem_map).of_eq froze
    exact fact.wellFormed ((same.represents h.clearModel).resolves resolves).1
  | searching begins reaches =>
    obtain ⟨-, begun⟩ := h.begin begins fun _ => Lit.var_lt_of_mem_map
    exact (reaches.searching begun fun _ => Lit.var_lt_of_mem_map).wellFormed.propagator

end Engine

end IncrementalSat
