import IncrementalSat.Proofs.Elimination.Variables
import IncrementalSat.Proofs.Engine.PartialModels

/-!
# Solving

A solve that finds a model keeps it; one that does not refutes the formula under the assumptions.
In both cases the engine stands for the same formula as before.
-/
namespace IncrementalSat

namespace Engine

variable {n : Nat} {e : Engine n} {f : Formula} {as : List (Literal Nat)}

/-! ## Elimination under assumptions -/

/-- Only the frozen marks differ. -/
def Refrozen (e e' : Engine n) : Prop := e' = { e with marks.frozen := e'.marks.frozen }

theorem Refrozen.represents {e' : Engine n} (h : Represents f e) (same : e.Refrozen e') :
    Represents f e' := by
  rw [same]
  exact h.of_eq rfl h.wellFormed.heap h.wellFormed.clear rfl rfl

theorem isFrozen_setFrozen (e : Engine n) (v w : Fin n) (frozen : Bool) :
    (e.setFrozen v frozen).isFrozen w = if v = w then frozen else e.isFrozen w :=
  Vector.get_set e.marks.frozen v w frozen v.isLt

/-- The variables of literals were frozen; those in the list had not been frozen before. -/
structure Froze (as : List (Literal Nat)) (e : Engine n) (vs : List (Fin n)) (e' : Engine n) :
    Prop where
  refrozen : e.Refrozen e'
  thawed : ∀ v ∈ vs, e.isFrozen v = false
  frozen_iff : ∀ v : Fin n, e'.isFrozen v = true ↔ e.isFrozen v = true ∨ v ∈ vs
  assumed : ∀ l : Lit n, l.toLiteral ∈ as → e'.isFrozen l.var = true

/-- The variables of all literals are frozen then, and those that were thawed before are listed. -/
theorem freezeAll_spec (as : List (Literal Nat)) (e : Engine n) (allocated : ∀ a ∈ as, a.var < n) :
    Yields (freezeAll as e) fun (vs, e') => Froze as e vs e' := by
  induction as generalizing e with
  | nil => exact Yields.ok ⟨rfl, by simp, by simp, by simp⟩
  | cons a as ih =>
    have rest : ∀ b ∈ as, b.var < n := fun b hb => allocated b (List.mem_cons_of_mem _ hb)
    obtain ⟨m, found, rfl⟩ := Lit.lookup_of_lt (allocated a List.mem_cons_self)
    have here : ∀ l : Lit n, l.toLiteral ∈ m.toLiteral :: as → l.var = m.var ∨ l.toLiteral ∈ as := by
      intro l hl
      rcases List.mem_cons.1 hl with same | mem
      · exact .inl (Fin.ext (congrArg Literal.var same))
      · exact .inr mem
    unfold freezeAll
    rw [found]
    change Yields (if e.isFrozen m.var = true then _ else _) _
    split
    · next frozen =>
      refine (ih e rest).mono ?_
      rintro ⟨vs, e'⟩ froze
      refine ⟨froze.refrozen, froze.thawed, froze.frozen_iff, fun l hl => ?_⟩
      rcases here l hl with eq | mem
      · rw [eq]
        exact (froze.frozen_iff m.var).2 (.inl frozen)
      · exact froze.assumed l mem
    · next thawed =>
      refine (ih (e.setFrozen m.var true) rest).bind ?_
      rintro ⟨vs, e'⟩ ⟨same, old, all, assumed⟩
      simp only [isFrozen_setFrozen] at old all
      have frozen : e'.isFrozen m.var = true := (all m.var).2 (.inl (if_pos rfl))
      refine Yields.pure ⟨?_, List.forall_mem_cons.2 ⟨by simpa using thawed, fun v hv => ?_⟩,
        fun v => ?_, fun l hl => ?_⟩
      · rw [Refrozen] at same ⊢
        rw [same]
        rfl
      · have unset := old v hv
        split at unset
        · cases unset
        · exact unset
      · rw [all, List.mem_cons]
        by_cases eq : m.var = v
        · simp [eq]
        · simp [eq, Ne.symm eq]
      · rcases here l hl with eq | mem
        · exact eq ▸ frozen
        · exact assumed l mem

theorem refrozen_unfreezeAll (vs : List (Fin n)) (e : Engine n) : e.Refrozen (unfreezeAll vs e) := by
  unfold unfreezeAll
  induction vs generalizing e with
  | nil => rfl
  | cons v vs ih =>
    have later := ih (e.setFrozen v false)
    rw [Refrozen] at later ⊢
    rw [List.foldl_cons, later]
    rfl

theorem isFrozen_unfreezeAll (vs : List (Fin n)) (e : Engine n) (w : Fin n) :
    (unfreezeAll vs e).isFrozen w = true ↔ e.isFrozen w = true ∧ w ∉ vs := by
  unfold unfreezeAll
  induction vs generalizing e with
  | nil => simp
  | cons v vs ih =>
    rw [List.foldl_cons, ih, isFrozen_setFrozen, List.mem_cons]
    by_cases eq : v = w
    · simp [eq]
    · simp [eq, Ne.symm eq]

/-- Unfreezing the variables in the list undoes the freezing. -/
theorem Froze.isFrozen_unfreezeAll {e₁ e₂ : Engine n} {vs : List (Fin n)} (froze : e.Froze as vs e₁)
    (during : e₂.marks.frozen = e₁.marks.frozen) (v : Fin n) :
    (unfreezeAll vs e₂).isFrozen v = e.isFrozen v := by
  have kept : e₂.isFrozen v = e₁.isFrozen v := by
    unfold isFrozen
    rw [during]
  rw [Bool.eq_iff_iff, Engine.isFrozen_unfreezeAll, kept, froze.frozen_iff]
  constructor
  · rintro ⟨frozen | mem, other⟩
    · exact frozen
    · exact absurd mem other
  · intro frozen
    refine ⟨.inl frozen, fun mem => ?_⟩
    rw [froze.thawed v mem] at frozen
    cases frozen

/-- What getting ready for a search under assumptions does to an engine. -/
structure Prepared (as : List (Literal Nat)) (e e' : Engine n) : Prop where
  config : e'.config = e.config
  model : e'.model = e.model
  frozen : ∀ v : Fin n, e'.isFrozen v = e.isFrozen v
  more : ∀ v : Fin n, e.isEliminated v = true → e'.isEliminated v = true
  thawed : ∀ v : Fin n, e'.isEliminated v = true → e.isEliminated v = true ∨ e.isFrozen v = false
  spared : ∀ l : Lit n, l.toLiteral ∈ as → e'.isEliminated l.var = true →
    e.isEliminated l.var = true
  decision : ∀ v : Fin n, e.marks.decision.get v = true →
    e'.marks.decision.get v = true ∨ e'.isEliminated v = true
  fixes : ∀ l, e.Fixes l → e'.Fixes l

/-- Frozen variables are spared, and freezing them is all that has to be taken back. -/
theorem prepared_of_sheds {e₁ e₂ : Engine n} {vs : List (Fin n)} (froze : e.Froze as vs e₁)
    (sheds : e₁.Sheds e₂) : Prepared as e (unfreezeAll vs e₂) := by
  have before := froze.refrozen
  have after := refrozen_unfreezeAll vs e₂
  have start : ∀ v : Fin n, e₁.isEliminated v = e.isEliminated v := fun v => by rw [before]; rfl
  have finish : ∀ v : Fin n, (unfreezeAll vs e₂).isEliminated v = e₂.isEliminated v := fun v => by
    rw [after]; rfl
  have decision : e₁.marks.decision = e.marks.decision := by rw [before]
  have decision' : (unfreezeAll vs e₂).marks.decision = e₂.marks.decision := by rw [after]
  refine ⟨?_, ?_, froze.isFrozen_unfreezeAll sheds.frozen, ?_, ?_, ?_, ?_, ?_⟩
  · calc
      (unfreezeAll vs e₂).config = e₂.config := by rw [after]
      _ = e₁.config := sheds.config
      _ = e.config := by rw [before]
  · calc
      (unfreezeAll vs e₂).model = e₂.model := by rw [after]
      _ = e₁.model := sheds.model
      _ = e.model := by rw [before]
  · intro v gone
    rw [finish]
    exact sheds.more v (by rwa [start])
  · intro v gone
    rw [finish] at gone
    rw [← start]
    refine (sheds.thawed v gone).imp_right fun thawed => ?_
    by_contra frozen
    rw [(froze.frozen_iff v).2 (.inl (by simpa using frozen))] at thawed
    cases thawed
  · intro l hl gone
    rw [finish] at gone
    rw [← start]
    refine (sheds.thawed l.var gone).resolve_right ?_
    rw [froze.assumed l hl]
    simp
  · intro v decide
    rw [decision', finish]
    exact sheds.decision v (by rwa [decision])
  · intro l fixed
    have kept := sheds.fixes l (by rw [before]; exact fixed)
    rw [after]
    exact kept

/-- The variables of assumptions are spared since they are frozen for the time being. -/
theorem eliminateUnder_spec (h : Represents f e) (allocated : ∀ a ∈ as, a.var < n)
    (turnOff : Bool) : Yields (e.eliminateUnder as turnOff) fun (ok, e') =>
      Represents f e' ∧ e'.consistent = ok ∧ Prepared as e e' := by
  unfold eliminateUnder
  refine (freezeAll_spec as e allocated).bind ?_
  rintro ⟨vs, e₁⟩ froze
  refine ((froze.refrozen.represents h).eliminate turnOff).bind ?_
  rintro ⟨ok, e₂⟩ ⟨h₂, answer, sheds⟩
  have after := refrozen_unfreezeAll vs e₂
  refine Yields.pure ⟨after.represents h₂, ?_, prepared_of_sheds froze sheds⟩
  rw [after]
  exact answer

/-- What comes before a search keeps what the engine stands for, and spares the assumptions. -/
theorem prepare_spec (h : Represents f e) (consistent : e.consistent = true)
    (allocated : ∀ a ∈ as, a.var < n) (simplify turnOff : Bool) :
    Yields (e.prepare as simplify turnOff) fun (ready, e') =>
      Represents f e' ∧ e'.consistent = ready ∧ Prepared as e e' := by
  have last : ∀ x : Bool × Engine n,
      Represents f x.2 ∧ x.2.consistent = x.1 ∧ Prepared as e x.2 →
      Yields (pure (x.1, if turnOff then x.2.stopEliminating else x.2)) fun (ready, e') =>
        Represents f e' ∧ e'.consistent = ready ∧ Prepared as e e' := by
    rintro ⟨ready, e'⟩ ⟨h', answer, prepared⟩
    cases turnOff with
    | false => exact Yields.pure ⟨h', answer, prepared⟩
    | true =>
      refine Yields.pure ⟨h'.of_eq rfl h'.wellFormed.heap h'.wellFormed.clear rfl rfl, answer, ?_⟩
      exact ⟨prepared.config, prepared.model, prepared.frozen, prepared.more, prepared.thawed,
        prepared.spared, prepared.decision, prepared.fixes⟩
  cases simplify with
  | true => exact (eliminateUnder_spec h allocated turnOff).bind last
  | false =>
    exact last (true, e)
      ⟨h, consistent, rfl, rfl, fun _ => rfl, fun _ h => h, fun _ h => .inl h, fun _ _ h => h,
        fun _ h => .inl h, fun _ h => h⟩

/-! ## The search -/

/-- Getting ready for a search keeps what the engine stands for, and limits the learnt clauses. -/
theorem prepareSearch_spec (h : Represents f e) : Yields e.prepareSearch fun e' =>
    Represents f e' ∧ e'.consistent = e.consistent ∧ Limit e'.learntLimit ∧ e.Keeps e' := by
  have wf := h.wellFormed.propagator
  unfold prepareSearch
  refine (Propagator.collectGarbage_spec wf h.root).bind ?_
  rintro p ⟨wf', clauses, frame⟩
  have trail : p.trail = e.trail := by rw [frame]
  have head : p.head = e.head := by rw [frame]
  have consistent : p.consistent = e.consistent := by rw [frame]
  have kept : Represents f { e with toPropagator := p } := by
    refine h.of_refines wf' (by rw [trail]; exact h.root) ?_ (.of_clauses_eq clauses trail)
      (fun still => consistent.symm.trans still) fun gone => h.refuted (consistent.symm.trans gone)
    rw [consistent, head, trail]
    exact h.done
  exact Yields.pure ⟨kept.of_eq rfl h.wellFormed.heap h.wellFormed.clear rfl rfl, consistent,
    limit_initial e, rfl, rfl, rfl, rfl, rfl⟩

/-- Going back to the root level after a search. -/
theorem Represents.ended {start : Engine n} {verdict : Verdict} (h : Represents f start)
    (before : start.consistent = true) (ended : Ended start as verdict e) :
    Represents f { e with toPropagator := e.toPropagator.backtrack 0 } := by
  have wf := ended.wellFormed.propagator
  have root : (e.trail.backtrack 0).level = 0 := by
    rw [wf.trail.level_backtrack]
    exact Nat.zero_min _
  have done : e.consistent = true → (e.toPropagator.backtrack 0).head =
      (e.toPropagator.backtrack 0).trail.size := by
    intro consistent
    rcases Nat.eq_zero_or_pos e.trail.level with low | above
    · have same : e.trail.backtrack 0 = e.trail := Trail.backtrack_of_level_le (Nat.le_of_eq low)
      change min e.head (e.trail.backtrack 0).size = (e.trail.backtrack 0).size
      rw [same, ended.done consistent, Nat.min_self]
    · exact wf.toLinked.head_backtrack above
  have kept : Represents f { start with toPropagator := e.toPropagator.backtrack 0 } := by
    refine h.of_refines (wf.backtrack 0) root done (ended.refines.trans (.backtrack wf.trail 0))
      (fun _ => before) fun inconsistent σ holds => ?_
    have unsat : verdict = .unsat := by
      by_contra other
      have consistent := ended.consistent.2 other
      change e.consistent = false at inconsistent
      rw [inconsistent] at consistent
      cases consistent
    subst unsat
    exact ended.right.2 σ (h.sound σ holds)
  exact kept.of_eq rfl ended.wellFormed.heap ended.wellFormed.clear ended.keeps.eliminations
    (congrArg Marks.eliminated ended.keeps.marks)

/-- What a solve leads to. -/
structure Solved (f : Formula) (as : List (Literal Nat)) (e : Engine n) (sat : Bool)
    (e' : Engine n) : Prop where
  represents : Represents f e'
  config : e'.config = e.config
  more : ∀ v : Fin n, e.isEliminated v = true → e'.isEliminated v = true
  decision : ∀ v : Fin n, e.marks.decision.get v = true →
    e'.marks.decision.get v = true ∨ e'.isEliminated v = true
  refuted : sat = false → ∀ σ, f.Holds σ → ¬ ∀ a ∈ as, a.Holds σ
  inconsistent : sat = false → as = [] → e'.consistent = false
  models : sat = true → (∀ v : Fin n, e.marks.decision.get v = true ∨ e.isEliminated v = true) →
    (∀ l : Lit n, l.toLiteral ∈ as → e.isEliminated l.var = false) → e'.Models f as
  excused : sat = true → (∀ l : Lit n, l.toLiteral ∈ as → e.isEliminated l.var = false) →
    ∀ clause ∈ f, e'.Falsifies clause → e'.Excuses clause

/-- Without a model there is nothing to be said of one. -/
theorem solved_of_refuted (represents : Represents f e') (config : e'.config = e.config)
    (more : ∀ v : Fin n, e.isEliminated v = true → e'.isEliminated v = true)
    (decision : ∀ v : Fin n, e.marks.decision.get v = true →
      e'.marks.decision.get v = true ∨ e'.isEliminated v = true)
    (refuted : ∀ σ, f.Holds σ → ¬ ∀ a ∈ as, a.Holds σ)
    (inconsistent : as = [] → e'.consistent = false) : Solved f as e false e' :=
  ⟨represents, config, more, decision, fun _ => refuted, fun _ => inconsistent, nofun, nofun⟩

/-- A search ends with a model of the clauses and the assumptions, or refutes them. -/
theorem searchModel_spec (h : Represents f e) (consistent : e.consistent = true)
    (allocated : ∀ a ∈ as, a.var < n) :
    Yields (e.searchModel as) fun (sat, e') => Solved f as e sat e' := by
  unfold searchModel
  refine (prepareSearch_spec h).bind ?_
  intro e₁ ⟨h₁, same, limit, keeps⟩
  have consistent' := same.trans consistent
  refine (search_spec h₁.wellFormed h₁.root consistent' limit allocated).bind ?_
  rintro ⟨verdict, e₂⟩ ended
  have finished := h₁.ended consistent' ended
  have config : e₂.config = e.config := ended.keeps.config.trans keeps.config
  have marks : e₂.marks = e.marks := ended.keeps.marks.trans keeps.marks
  have eliminated : ∀ v : Fin n, e₂.isEliminated v = e.isEliminated v := by
    intro v
    unfold isEliminated
    rw [marks]
  have more : ∀ v : Fin n, e.isEliminated v = true → e₂.isEliminated v = true := fun v gone => by
    rw [eliminated, gone]
  have decision : ∀ v : Fin n, e.marks.decision.get v = true →
      e₂.marks.decision.get v = true ∨ e₂.isEliminated v = true := fun v decide => by
    rw [marks]
    exact .inl decide
  unfold retreat
  dsimp only
  rw [ended.wellFormed.propagator.retreat]
  cases verdict with
  | sat =>
    have usable₁ : (∀ l : Lit n, l.toLiteral ∈ as → e.isEliminated l.var = false) →
        ∀ l : Lit n, l.toLiteral ∈ as → e₁.isEliminated l.var = false := by
      unfold isEliminated
      rw [keeps.marks]
      exact id
    refine Yields.pure ⟨finished.of_eq rfl finished.wellFormed.heap finished.wellFormed.clear rfl rfl,
      config, more, decision, by simp, by simp, fun _ decided usable => ?_, ?_⟩
    · refine models_of_ended h₁ consistent' ended ?_ (usable₁ usable)
      unfold isEliminated
      rw [keeps.marks]
      exact decided
    · intro _ usable clause mem falsified
      obtain ⟨gone, unset⟩ :=
        excuses_of_ended h₁ ended consistent' (usable₁ usable) mem falsified
      exact ⟨gone, unset⟩
  | unsat =>
    obtain ⟨root, unsat⟩ := ended.right
    refine Yields.pure (solved_of_refuted finished config more decision ?_ fun _ => ?_)
    · exact fun σ holds _ => unsat σ (h₁.sound σ holds)
    · have inconsistent := ended.consistent
      change e₂.consistent = false
      simpa using inconsistent
  | failed =>
    obtain ⟨nonempty, failed⟩ := ended.right
    refine Yields.pure (solved_of_refuted finished config more decision ?_ fun none =>
      absurd none nonempty)
    exact fun σ holds => failed σ (h₁.sound σ holds)

/-- A solve keeps what the engine stands for, and its answer is right. -/
theorem solve_spec (h : Represents f e) (allocated : ∀ a ∈ as, a.var < n)
    (simplify turnOff : Bool) :
    Yields (e.solve as simplify turnOff) fun (sat, e') => Solved f as e sat e' := by
  have cleared := h.clearModel
  unfold solve
  dsimp only
  cases consistent : e.consistent with
  | false =>
    refine Yields.ok (solved_of_refuted cleared rfl (fun _ h => h) (fun _ h => .inl h) ?_ fun _ =>
      consistent)
    exact fun σ holds => absurd holds (h.refuted consistent σ)
  | true =>
    refine (prepare_spec cleared consistent allocated simplify turnOff).bind ?_
    rintro ⟨ready, e₁⟩ ⟨h₁, answer, prepared⟩
    cases ready with
    | false =>
      refine Yields.ok (solved_of_refuted h₁ prepared.config prepared.more prepared.decision ?_ fun _ =>
        answer)
      exact fun σ holds => absurd holds (h₁.refuted answer σ)
    | true =>
      refine (searchModel_spec h₁ answer allocated).mono ?_
      rintro ⟨sat, e₂⟩ solved
      have usable₁ : (∀ l : Lit n, l.toLiteral ∈ as → e.isEliminated l.var = false) →
          ∀ l : Lit n, l.toLiteral ∈ as → e₁.isEliminated l.var = false := by
        intro usable l hl
        by_contra gone
        rw [Bool.not_eq_false] at gone
        have before := prepared.spared l hl gone
        change e.isEliminated l.var = true at before
        rw [usable l hl] at before
        cases before
      refine ⟨solved.represents, solved.config.trans prepared.config,
        fun v gone => solved.more v (prepared.more v gone), ?_, solved.refuted, solved.inconsistent, ?_,
        fun found usable => solved.excused found (usable₁ usable)⟩
      · intro v decide
        rcases prepared.decision v decide with still | gone
        · exact solved.decision v still
        · exact .inr (solved.more v gone)
      · intro found decided usable
        refine solved.models found (fun v => ?_) (usable₁ usable)
        rcases decided v with decide | gone
        · exact prepared.decision v decide
        · exact .inr (prepared.more v gone)

end Engine

end IncrementalSat
