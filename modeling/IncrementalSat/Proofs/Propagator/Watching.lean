import IncrementalSat.Proofs.Propagator.Simplification
import IncrementalSat.Proofs.Search.Assumptions

/-!
# Watched literals

The watch lists name each clause once under each of the two literals it watches, and nowhere else. A
removed clause may stay listed. Once everything is propagated, a watched literal is false only if the
clause has a true literal whose level is no higher: whatever jump back takes the true literal away
takes the false one away as well.
-/
namespace IncrementalSat

namespace Propagator

variable {n : Nat} {p : Propagator n} {P Q : Propagator n → Prop}

/-- The watch lists are right, and so is each watch once everything is propagated. -/
structure Watched (p : Propagator n) : Prop where
  first : ∀ i c, p.store.Has i c → (p.watches.get c.first).count i = 1
  second : ∀ i c, p.store.Has i c → (p.watches.get c.second).count i = 1
  elsewhere : ∀ i c, p.store.Has i c → ∀ l, l ≠ c.first → l ≠ c.second → i ∉ p.watches.get l
  others : ∀ l, ∀ i ∈ p.watches.get l,
    (∃ c, p.store.Has i c ∧ (l = c.first ∨ l = c.second)) ∨ p.store.slots[i]? = some none
  excused : p.head = p.trail.size → ∀ i c, p.store.Has i c → ∀ w, c.Watches w →
    p.trail.eval w = some false →
      ∃ m ∈ c.lits, p.trail.eval m = some true ∧ p.trail.depth m ≤ p.trail.depth w

theorem WellFormed.watched (h : p.WellFormed) : p.Watched where
  first := by
    intro i c hc
    rw [h.listed i c hc, if_pos (.inl rfl)]
  second := by
    intro i c hc
    rw [h.listed i c hc, if_pos (.inr rfl)]
  elsewhere := by
    intro i c hc l first second
    rw [h.toLinked.mem_watches_iff hc]
    exact not_or_intro first second
  others := by
    intro l i hi
    exact (h.slot_of_mem_watches hi).symm
  excused := by
    intro done i c hc w hw value
    obtain ⟨k, hk⟩ := (h.trail.eval_eq_false_iff w).1 value
    have before : k < p.trail.size := (Array.getElem?_eq_some_iff.1 hk).1
    exact h.served i c hc w hw k (Nat.lt_of_lt_of_eq before done.symm) hk

/-- Every change that an operation makes leads to a propagator with the property. -/
structure Maintains (p : Propagator n) (Q : Propagator n → Prop) : Prop where
  attach : ∀ c, (c.lits.map (·.var)).Nodup → p.trail.eval c.first = none →
    p.trail.eval c.second = none → Q (p.attach c)
  learn : ∀ b, Analysis.Learned p b → Yields (p.learn b) Q
  propagate : Yields p.propagate fun (_, q) => Q q
  retreat : ∀ level, Yields (p.retreat level) Q
  decide : p.head = p.trail.size → ∀ l, p.trail.eval l = none →
    Q { p with trail := p.trail.openWith l }
  openLevel : p.head = p.trail.size → Q { p with trail := p.trail.openLevel }
  reduceLearnts : Yields p.reduceLearnts Q
  simplifyClause : p.trail.level = 0 → p.head = p.trail.size → ∀ i c, p.store.Has i c →
    Yields (p.simplifyClause i c) Q
  simplify : p.trail.level = 0 → Yields p.simplify fun (_, q) => Q q
  removeAll : p.trail.level = 0 → ∀ is, is.Nodup → (∀ i ∈ is, ∃ c, p.store.Has i c) →
    Yields (Propagator.removeAll is p) Q
  addClause : p.trail.level = 0 → ∀ ms : List (Lit n),
    Yields (p.addClause (ms.map Lit.toLiteral)) fun (_, q) => Q q
  collectGarbage : p.trail.level = 0 → Yields p.collectGarbage Q

theorem Maintains.mono (h : p.Maintains P) (weaker : ∀ q, P q → Q q) : p.Maintains Q where
  attach := fun c distinct first second => weaker _ (h.attach c distinct first second)
  learn := fun b learned => (h.learn b learned).mono weaker
  propagate := h.propagate.mono fun out => weaker out.2
  retreat := fun level => (h.retreat level).mono weaker
  decide := fun done l fresh => weaker _ (h.decide done l fresh)
  openLevel := fun done => weaker _ (h.openLevel done)
  reduceLearnts := h.reduceLearnts.mono weaker
  simplifyClause := fun root done i c hc => (h.simplifyClause root done i c hc).mono weaker
  simplify := fun root => (h.simplify root).mono fun out => weaker out.2
  removeAll := fun root is nodup live => (h.removeAll root is nodup live).mono weaker
  addClause := fun root ms => (h.addClause root ms).mono fun out => weaker out.2
  collectGarbage := fun root => (h.collectGarbage root).mono weaker

theorem WellFormed.maintains (h : p.WellFormed) : p.Maintains WellFormed where
  attach := fun c distinct first second => h.attach distinct first second
  learn := fun b learned => (learn_spec h learned).mono fun _ asserted => asserted.wellFormed
  propagate := (propagate_spec h).mono fun _ spec => spec.2.1
  retreat := fun level => ⟨_, h.retreat level, h.backtrack level⟩
  decide := fun done l fresh => h.decide done fresh
  openLevel := h.openLevel
  reduceLearnts := (reduceLearnts_spec h).mono fun _ spec => spec.1
  simplifyClause := fun root done i c hc =>
    (simplifyClause_spec h root done hc).mono fun _ simplified => simplified.wellFormed
  simplify := fun root => (simplify_spec h root).mono fun _ cleaned => cleaned.wellFormed
  removeAll := by
    intro root is nodup live
    have removed := h.removeAll nodup fun i hi => by
      obtain ⟨c, hc⟩ := live i hi
      exact ⟨c, hc, fun above => absurd root above⟩
    exact removed.mono fun _ without => without.wellFormed
  addClause := fun root ms =>
    (addClause_spec h root fun _ => Lit.var_lt_of_mem_map).mono fun _ step =>
      (step.wellFormed h root).1
  collectGarbage := fun root => (collectGarbage_spec h root).mono fun _ spec => spec.1

end Propagator

end IncrementalSat
