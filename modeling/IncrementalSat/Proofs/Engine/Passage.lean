import IncrementalSat.Proofs.Engine.Propagation
import IncrementalSat.Proofs.Propagator.Course

/-!
# Where the operations on an engine pass through

An operation on an engine changes its propagator in stages: a clause is added, the clauses are
simplified, variables are eliminated one after the other, and a search goes from step to step. In all
of these places the propagator is well-formed.
-/
namespace IncrementalSat

variable {n : Nat}

namespace Engine

variable {e e' : Engine n} {f : Formula} {v : Fin n} {p q : Propagator n}
  {table learntTable : Occurrences n} {as : List (Literal Nat)} {restartDue : Bool}

/-! ## Elimination -/

/-- Before the resolvents on a variable are added, the clauses it occurs in are removed: first its
problem clauses, then its learnt clauses. This comes to `q`. -/
inductive Vacates (e : Engine n) (v : Fin n) (table learntTable : Occurrences n) :
    Propagator n → Prop
  | problems {is js : List Nat} {q : Propagator n}
      (positive : table.lookUp e.store ⟨v, true⟩ = .ok is)
      (negative : table.lookUp e.store ⟨v, false⟩ = .ok js)
      (drops : e.toPropagator.Drops (is ++ js) q) : Vacates e v table learntTable q
  | learnts {is js ks ls : List Nat} {p q : Propagator n}
      (positive : table.lookUp e.store ⟨v, true⟩ = .ok is)
      (negative : table.lookUp e.store ⟨v, false⟩ = .ok js)
      (removed : e.toPropagator.removeAll (is ++ js) = .ok p)
      (positive' : learntTable.lookUp p.store ⟨v, true⟩ = .ok ks)
      (negative' : learntTable.lookUp p.store ⟨v, false⟩ = .ok ls)
      (drops : p.Drops (ks ++ ls) q) : Vacates e v table learntTable q

theorem Vacates.wellFormed (vacates : e.Vacates v table learntTable q)
    (h : Trying f learntTable table v e) : q.WellFormed := by
  have wf := h.represents.wellFormed.propagator
  have root := h.represents.root
  cases vacates with
  | problems positive negative drops =>
    rw [h.problems.lookUp] at positive negative
    cases positive
    cases negative
    apply drops.wellFormed wf root (h.problems.nodup_liveAt wf.store v)
    intro i hi
    obtain ⟨c, hc, -⟩ := (Propagator.mem_liveAt_var_iff h.problems v i).1 hi
    exact ⟨c, hc⟩
  | learnts positive negative removed positive' negative' drops =>
    rw [h.problems.lookUp] at positive negative
    cases positive
    cases negative
    have without := (Propagator.removeAll_liveAt wf root h.problems v).of_eq removed
    have learnts := h.learnts.without without.size fun i d hd => ((without.has i d).1 hd).2
    rw [learnts.lookUp] at positive' negative'
    cases positive'
    cases negative'
    apply drops.wellFormed without.wellFormed (by rw [without.frame]; exact root)
      (learnts.nodup_liveAt without.wellFormed.store v)
    intro i hi
    obtain ⟨c, hc, -⟩ := (Propagator.mem_liveAt_var_iff learnts v i).1 hi
    exact ⟨c, hc⟩

/-- Eliminating variables comes to `q`. -/
inductive Eliminating (e : Engine n) : Propagator n → Prop
  | simplifying {q : Propagator n} (simplifies : e.toPropagator.Simplifies q) : Eliminating e q
  | trying {e₁ e₂ : Engine n} {v : Fin n} {table : Occurrences n}
      (simplified : e.simplify = .ok (true, e₁)) (on : e₁.eliminates = true)
      (tries : Tries (.ofStore e₁.store true) (e₁.candidates (.ofStore e₁.store false))
        (.ofStore e₁.store false) e₁ v table e₂) : Eliminating e e₂.toPropagator
  | vacating {e₁ e₂ : Engine n} {v : Fin n} {table : Occurrences n} {as bs rs : List (List (Lit n))}
      {p q : Propagator n} (simplified : e.simplify = .ok (true, e₁)) (on : e₁.eliminates = true)
      (tries : Tries (.ofStore e₁.store true) (e₁.candidates (.ofStore e₁.store false))
        (.ofStore e₁.store false) e₁ v table e₂)
      (gives : e₂.GivesWay v table (.ofStore e₁.store true) as bs rs p)
      (vacates : e₂.Vacates v table (.ofStore e₁.store true) q) : Eliminating e q
  | resolving {r : List (Lit n)} {ok : Bool} {p q : Propagator n} (resolves : e.Resolves r p)
      (added : p.addClause (r.map Lit.toLiteral) = .ok (ok, q)) : Eliminating e q
  | eliminated {turnOff ok : Bool} {e' : Engine n}
      (eliminated : e.eliminate turnOff = .ok (ok, e')) : Eliminating e e'.toPropagator

theorem Represents.eliminating (h : Represents f e) (eliminating : e.Eliminating q) :
    q.WellFormed := by
  have wf := h.wellFormed.propagator
  cases eliminating with
  | simplifying simplifies => exact simplifies.wellFormed wf h.root
  | trying simplified _ tries => exact (h.trying simplified tries).represents.wellFormed.propagator
  | vacating simplified _ tries _ vacates => exact vacates.wellFormed (h.trying simplified tries)
  | resolving resolves added =>
    obtain ⟨wf', root⟩ := h.resolves resolves
    have step := (Propagator.addClause_spec wf' root fun _ => Lit.var_lt_of_mem_map).of_eq added
    exact (step.wellFormed wf' root).1
  | eliminated eliminated => exact ((h.eliminate _).of_eq eliminated).1.wellFormed.propagator

/-! ## Search -/

/-- A step of a search comes to `q`. -/
inductive Turns (as : List (Literal Nat)) (restartDue : Bool) (e : Engine n) : Propagator n → Prop
  | start : Turns as restartDue e e.toPropagator
  | propagated {conflict : Option Nat} {e₁ : Engine n}
      (propagated : e.propagating (·.propagate) = .ok (conflict, e₁)) :
      Turns as restartDue e e₁.toPropagator
  | jumped {i : Nat} {e₁ : Engine n} {b : Backjump n} {a : Analysis n} {q : Propagator n}
      (conflict : e.propagating (·.propagate) = .ok (some i, e₁)) (above : e₁.trail.level ≠ 0)
      (analysed : Analysis.run e₁.trail ⟨e₁.store, e₁.order, e₁.seen, #[], 0⟩ i = .ok (b, a))
      (jumped : { e₁.toPropagator with store := a.store }.retreat b.level = .ok q) :
      Turns as restartDue e q
  | trimmed {e₁ e₂ : Engine n} (propagated : e.propagating (·.propagate) = .ok (none, e₁))
      (undue : restartDue = false) (trimmed : e₁.trimLearnts = .ok e₂) :
      Turns as restartDue e e₂.toPropagator
  | opened {e₁ e₂ e₃ : Engine n} {request : Request n}
      (propagated : e.propagating (·.propagate) = .ok (none, e₁)) (undue : restartDue = false)
      (trimmed : e₁.trimLearnts = .ok e₂)
      (opened : e₂.propagating (·.openAssumed (as.drop e₂.trail.level)) = .ok (request, e₃)) :
      Turns as restartDue e e₃.toPropagator
  | stepped {progress : Progress} {e' : Engine n}
      (stepped : searchStep as restartDue e = .ok (progress, e')) :
      Turns as restartDue e e'.toPropagator

theorem Searching.turns {start : Engine n} (h : Searching start as e)
    (allocated : ∀ a ∈ as, a.var < n) (turns : e.Turns as restartDue q) : q.WellFormed := by
  cases turns with
  | start => exact h.wellFormed.propagator
  | propagated propagated => exact (h.propagate.of_eq propagated).1.wellFormed.propagator
  | @jumped i e₁ b a _ conflict above analysed jumped =>
    obtain ⟨searching, -, -, c, hc, conflicting⟩ := h.propagate.of_eq conflict
    have wf := searching.wellFormed.propagator
    obtain ⟨-, rated, -⟩ := (Analysis.run_spec wf.toLinked above hc conflicting e₁.order e₁.seen
      searching.wellFormed.heap searching.wellFormed.clear).of_eq analysed
    have wf' := wf.of_matches rated
    rw [wf'.retreat] at jumped
    cases jumped
    exact wf'.backtrack b.level
  | trimmed propagated _ trimmed =>
    obtain ⟨searching, -⟩ := h.propagate.of_eq propagated
    exact (searching.trimLearnts.of_eq trimmed).1.wellFormed.propagator
  | opened propagated _ trimmed opened =>
    obtain ⟨searching, -, -, done⟩ := h.propagate.of_eq propagated
    obtain ⟨searching', -, trail, head⟩ := searching.trimLearnts.of_eq trimmed
    have done' := head.trans (done.trans (congrArg Trail.size trail.symm))
    exact ((searching'.openAssumed done' allocated).of_eq opened).1.wellFormed.propagator
  | @stepped progress _ stepped =>
    have leads := (searchStep_spec h allocated restartDue).of_eq stepped
    cases progress with
    | finished verdict => exact Ended.wellFormed leads |>.propagator
    | running due => exact leads.1.wellFormed.propagator

/-! ## All operations -/

/-- An operation on the engine, or what follows the last one, passes through `q`. -/
inductive Passes (e : Engine n) : Propagator n → Prop
  | resting : Passes e e.toPropagator
  | propagating {q : Propagator n} (propagates : e.Propagates q) : Passes e q
  | adding {ms : List (Lit n)} {ok : Bool} {q : Propagator n}
      (added : e.toPropagator.addClause (ms.map Lit.toLiteral) = .ok (ok, q)) : Passes e q
  | simplifying {q : Propagator n} (simplifies : e.toPropagator.Simplifies q) : Passes e q
  | eliminating {q : Propagator n} (eliminating : e.Eliminating q) : Passes e q
  | preparing {as : List (Lit n)} {vs : List (Fin n)} {e₁ : Engine n} {q : Propagator n}
      (consistent : e.consistent = true)
      (froze : freezeAll (as.map Lit.toLiteral) { e with model := #[] } = .ok (vs, e₁))
      (eliminating : e₁.Eliminating q) : Passes e q
  | searching {as : List (Lit n)} {simplify turnOff restartDue : Bool} {start e' : Engine n}
      {q : Propagator n} (begins : e.Begins (as.map Lit.toLiteral) simplify turnOff start)
      (reaches : Reaches (as.map Lit.toLiteral) start restartDue e')
      (turns : e'.Turns (as.map Lit.toLiteral) restartDue q) : Passes e q
  | ended {as : List (Lit n)} {simplify turnOff : Bool} {start e' : Engine n} {verdict : Verdict}
      {q : Propagator n} (begins : e.Begins (as.map Lit.toLiteral) simplify turnOff start)
      (searched : start.search (as.map Lit.toLiteral) = .ok (verdict, e'))
      (returned : e'.toPropagator.retreat 0 = .ok q) : Passes e q

theorem Represents.passes (h : Represents f e) (passes : e.Passes q) : q.WellFormed := by
  have wf := h.wellFormed.propagator
  cases passes with
  | resting => exact wf
  | propagating propagates => exact h.propagates propagates
  | adding added =>
    have step := (Propagator.addClause_spec wf h.root fun _ => Lit.var_lt_of_mem_map).of_eq added
    exact (step.wellFormed wf h.root).1
  | simplifying simplifies => exact simplifies.wellFormed wf h.root
  | eliminating eliminating => exact h.eliminating eliminating
  | preparing _ froze eliminating =>
    obtain ⟨same, -⟩ := (freezeAll_spec _ _ fun _ => Lit.var_lt_of_mem_map).of_eq froze
    exact (same.represents h.clearModel).eliminating eliminating
  | searching begins reaches turns =>
    obtain ⟨-, begun⟩ := h.begin begins fun _ => Lit.var_lt_of_mem_map
    have searching := reaches.searching begun fun _ => Lit.var_lt_of_mem_map
    exact searching.turns (fun _ => Lit.var_lt_of_mem_map) turns
  | @ended as _ _ _ _ _ _ begins searched returned =>
    have allocated : ∀ a ∈ as.map Lit.toLiteral, a.var < n := fun _ => Lit.var_lt_of_mem_map
    obtain ⟨h', begun⟩ := h.begin begins allocated
    have ended := (search_spec h'.wellFormed h'.root begun.consistent begun.limit allocated).of_eq
      searched
    rw [ended.wellFormed.propagator.retreat] at returned
    cases returned
    exact ended.wellFormed.propagator.backtrack 0

end Engine

end IncrementalSat
