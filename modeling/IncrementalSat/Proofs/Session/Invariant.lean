import IncrementalSat.Proofs.Engine.Growth
import IncrementalSat.Proofs.Engine.Solving
import IncrementalSat.Proofs.Session.History

/-!
# What holds of a session at any time

The engine of a session stands for the clauses that were accepted. If the search was never kept from
branching on a variable, the search may still branch on every variable that was not eliminated, and
the model that can be read satisfies the clauses and the assumptions of the last solve. Every
operation keeps this up; so every run does.
-/
namespace IncrementalSat

/-- The propagator without variables. -/
theorem Propagator.wellFormed_fresh (decay : Float) : (fresh decay).WellFormed where
  trail := Trail.wellFormed_empty
  store := ⟨fun _ c => c.first.var.elim0, rfl, rfl, rfl⟩
  justified := fun _ l => l.var.elim0
  listed := fun _ c => c.first.var.elim0
  inRange := fun l => l.var.elim0
  head_le := Nat.le_refl 0
  current := nofun
  served := fun _ c => c.first.var.elim0

/-- The engine without variables stands for the empty formula. -/
theorem Engine.represents_fresh (config : Config) : Represents [] (fresh config) where
  wellFormed := ⟨Propagator.wellFormed_fresh _, ⟨fun v => v.elim0, rfl⟩, fun v => v.elim0⟩
  root := rfl
  done := fun _ => rfl
  sound := fun _ _ => ⟨fun _ c => c.first.var.elim0, fun l => l.var.elim0⟩
  covers := fun _ _ _ => nofun
  traced := fun _ => nofun
  refuted := nofun
  hygienic := ⟨fun v => v.elim0, fun v => v.elim0, .nil⟩
  allocated := nofun

/-- The stored model is all that matters. -/
theorem Engine.Models.of_model_eq {n : Nat} {e e' : Engine n} {f : Formula} {as : List (Literal Nat)}
    (h : e.Models f as) (model : e'.model = e.model) : e'.Models f as := by
  unfold Models modelValue at h ⊢
  rwa [model]

namespace Session

variable {h : History} {s s' : Session}

/-- What the history of a session says about it. -/
structure Invariant (h : History) (s : Session) : Prop where
  represents : s.engine.Represents h.accepted
  decided : h.Decisive → ∀ v : Fin s.numVars,
    s.engine.marks.decision.get v = true ∨ s.engine.isEliminated v = true
  models : s.modelReady = true → h.Decisive → s.engine.Models h.accepted h.assumptions

namespace Invariant

theorem fresh (config : Config) : Invariant [] (fresh config) where
  represents := by
    have empty := Engine.represents_fresh config
    unfold Session.fresh
    dsimp only
    split
    · exact empty.of_eq rfl empty.wellFormed.heap empty.wellFormed.clear rfl rfl
    · exact empty
  decided := fun _ v => v.elim0
  models := nofun

section

variable (inv : Invariant h s) {op : Operation} {answer : Answer} (other : op ≠ .reset)
  {e : Engine s.numVars}
  (more : ∀ v : Fin s.numVars, s.engine.isEliminated v = true → e.isEliminated v = true)
  (decision : op.decides = true → ∀ v : Fin s.numVars, s.engine.marks.decision.get v = true →
    e.marks.decision.get v = true ∨ e.isEliminated v = true)

include inv other more decision

/-- Operations that change the engine but allocate no variable. -/
theorem step (represents : e.Represents (h.record op answer).accepted) {ready : Bool}
    (models : ready = true → (h.record op answer).Decisive →
      e.Models (h.record op answer).accepted (h.record op answer).assumptions)
    (config : Config) (solved : Bool) :
    Invariant (h.record op answer) ⟨s.numVars, e, config, solved, ready⟩ where
  represents := represents
  decided := by
    intro decisive v
    obtain ⟨decides, decisive⟩ := (h.decisive_record_iff other).1 decisive
    rcases inv.decided decisive v with decide | gone
    · exact decision decides v decide
    · exact .inr (more v gone)
  models := models

/-- Operations that say nothing about the formula and leave the model in place. -/
theorem keep (silent : History.clause? (op, answer) = none) (idle : op.assumptions? = none)
    (represents : e.Represents h.accepted) (model : e.model = s.engine.model) :
    Invariant (h.record op answer) { s with engine := e } := by
  have accepted := h.accepted_record_of_none other silent
  refine inv.step other more decision (accepted ▸ represents) ?_ s.config s.solvedByStrategy
  intro ready decisive
  rw [accepted, h.assumptions_record_of_none other idle]
  exact (inv.models ready ((h.decisive_record_iff other).1 decisive).2).of_model_eq model

end

/-- Operations that only ask. -/
theorem ask (inv : Invariant h s) {op : Operation} {answer : Answer} (other : op ≠ .reset)
    (silent : History.clause? (op, answer) = none) (idle : op.assumptions? = none) :
    Invariant (h.record op answer) s :=
  inv.keep other (fun _ gone => gone) (fun _ _ decide => .inl decide) silent idle inv.represents rfl

end Invariant

end Session

end IncrementalSat
