import IncrementalSat.Proofs.Engine.Consistency
import IncrementalSat.Proofs.Session.Contradiction
import IncrementalSat.Proofs.Session.PartialModels

/-!
# Models of contradicted sessions

Adding a clause, allocating a variable and every solve decide anew whether a model can be read, and
none of them leaves a readable model with a contradiction. Simplifying and eliminating variables do
not touch the model. Simplifying finds no contradiction after a solve, but eliminating variables can:
if the search was kept from branching on some variables, a solve may leave them unset although the
clauses on them contradict each other, which their resolvents then show. This is the one way to a
contradicted session whose model can be read.
-/
namespace IncrementalSat

/-- An operation that does not set the engine to work adds no clause. -/
theorem History.clause?_of_quiet {op : Operation} {answer : Answer}
    (quiet : op.engages answer = false) : clause? (op, answer) = none := by
  cases op with
  | addClause lits =>
    cases answer with
    | flag b => cases quiet
    | _ => rfl
  | _ => rfl

/-- A solve adds no clause. -/
theorem History.clause?_of_asked {op : Operation} {as : List (Literal Nat)}
    (asked : op.assumptions? = some as) (answer : Answer) : clause? (op, answer) = none := by
  cases op with
  | addClause lits => cases asked
  | _ => rfl

namespace Session

variable {config : Config} {h : History} {s s' : Session} {op : Operation} {answer : Answer}
  {ops : List Operation} {answers : List Answer}

/-- Every way to read the model is rejected. -/
def Unreadable (s : Session) : Prop :=
  s.model = .error (.invalidState .noModel) ∧
    ∀ l, s.modelValue l = .error (.invalidState .noModel) ∧
      s.value l = .error (.invalidState .noModel)

theorem unreadable_of_not_ready (unready : s.modelReady = false) : s.Unreadable := by
  have rejected : ∀ l, s.modelValue l = .error (.invalidState .noModel) := by
    intro l
    simp [modelValue, unready]
  refine ⟨by simp [model, unready], fun l => ⟨rejected l, ?_⟩⟩
  unfold value
  rw [rejected l]
  rfl

/-! ## Models without unset variables -/

/-- If the model can be read and leaves no variable unset, the clauses accepted so far do not
contradict each other. -/
def Faithful (h : History) (s : Session) : Prop :=
  s.modelReady = true → s.engine.Total → ∃ σ, h.accepted.Holds σ

/-- Operations that leave the model in place and add no clause. -/
theorem Faithful.keep (faithful : Faithful h s) (other : op ≠ .reset)
    (silent : History.clause? (op, answer) = none) {e : Engine s.numVars}
    (model : e.model = s.engine.model) {config : Config} {solved ready : Bool}
    (before : ready = true → s.modelReady = true) :
    Faithful (h.record op answer) ⟨s.numVars, e, config, solved, ready⟩ := by
  intro now total
  rw [h.accepted_record_of_none other silent]
  refine faithful (before now) fun v => ?_
  have set := total v
  unfold Engine.modelValue at set ⊢
  rwa [← model]

theorem faithful_of_perform (inv : Invariant h s) (faithful : Faithful h s)
    (performed : s.perform op = .ok (answer, s')) : Faithful (h.record op answer) s' := by
  have represents := inv.represents
  cases effect_of_perform performed with
  | allocated => exact nofun
  | restarted => exact nofun
  | marked stays frame _ quiet =>
    have other : op ≠ .reset := by
      rintro rfl
      cases stays 1
    refine faithful.keep other (History.clause?_of_quiet quiet) (by rw [frame]) fun ready => ?_
    exact (Bool.and_eq_true_iff.1 ready).2
  | added => exact nofun
  | simplified simplified =>
    obtain ⟨-, -, frame⟩ := represents.simplify.of_eq simplified
    exact faithful.keep (by nofun) rfl (by rw [frame]) id
  | @eliminated turnOff _ _ eliminated =>
    obtain ⟨-, -, sheds⟩ := (represents.eliminate turnOff).of_eq eliminated
    exact faithful.keep (by nofun) rfl sheds.model id
  | @solved _ as asked =>
    intro found total
    cases found
    have other : op ≠ .reset := by
      rintro rfl
      cases asked
    have after := performed_of_perform inv performed
    have allocated := after.invariant.represents.allocated
    rw [h.accepted_record_of_none other (History.clause?_of_asked asked _)] at allocated ⊢
    refine ⟨_, Engine.holds_of_total total allocated fun clause mem falsified => ?_⟩
    obtain ⟨v, unset⟩ := (after.excused as asked rfl clause mem falsified).unset
    exact total v unset

theorem faithful_of_run (inv : Invariant h s) (faithful : Faithful h s)
    (run : s.run ops = .ok (answers, s')) : Faithful (h.after ops answers) s' :=
  preserved_of_run faithful_of_perform inv faithful run

/-! ## Contradictions -/

/-- Once a session is contradicted, no model becomes readable. -/
theorem ready_of_perform (contradicted : s.consistent = false)
    (performed : s.perform op = .ok (answer, s')) (ready : s'.modelReady = true) :
    s.modelReady = true := by
  cases effect_of_perform performed with
  | marked => exact (Bool.and_eq_true_iff.1 ready).2
  | simplified => exact ready
  | eliminated => exact ready
  | solved _ _ solved =>
    rw [Engine.solve_of_contradicted contradicted] at solved
    cases solved
    cases ready
  | _ => cases ready

theorem ready_of_run (inv : Invariant h s) (contradicted : s.consistent = false)
    (run : s.run ops = .ok (answers, s')) (kept : .reset ∉ ops) (ready : s'.modelReady = true) :
    s.modelReady = true := by
  refine related_of_run (R := fun s s' => s'.modelReady = true → s.modelReady = true)
    (P := fun s => s.consistent = false) (fun _ => id) (fun first second => first ∘ second) ?_ inv
    contradicted run kept ready
  intro h s op answer s' inv contradicted performed other
  have alike := exportsAlike_of_perform inv contradicted performed other
  exact ⟨ready_of_perform contradicted performed, alike.consistent.trans contradicted⟩

/-- Only eliminating variables can lead to a contradiction and leave a model readable. -/
theorem eliminates_of_contradiction (inv : Invariant h s) (consistent : s.consistent = true)
    (performed : s.perform op = .ok (answer, s')) (contradicted : s'.consistent = false)
    (ready : s'.modelReady = true) :
    s.modelReady = true ∧ ∃ turnOff, op = .eliminate turnOff ∧ answer = .flag false := by
  have represents := inv.represents
  cases effect_of_perform performed with
  | marked _ frame =>
    rw [frame] at contradicted
    cases contradicted.symm.trans consistent
  | simplified simplified =>
    cases contradicted.symm.trans (represents.consistent_of_simplify consistent simplified)
  | @eliminated turnOff _ _ eliminated =>
    obtain ⟨-, same, -⟩ := (represents.eliminate turnOff).of_eq eliminated
    cases same.symm.trans contradicted
    exact ⟨ready, turnOff, rfl, rfl⟩
  | solved _ allocated solved =>
    cases ready
    cases contradicted.symm.trans (represents.consistent_of_solve allocated solved)
  | _ => cases ready

/-- No model of a contradicted session can be read, unless eliminating variables led to the
contradiction while a model could be read. That model leaves a variable unset, so the search must
have been kept from branching on some variable. -/
theorem unreadable_of_contradiction (run : (fresh config).run ops = .ok (answers, s))
    (contradicted : s.consistent = false) :
    s.Unreadable ∨
      (∃ before turnOff more answers₁ s₁ s₂ answers₂, ops = before ++ .eliminate turnOff :: more ∧
        (fresh config).run before = .ok (answers₁, s₁) ∧ s₁.consistent = true ∧
        (∃ bits, s₁.model = .ok bits) ∧ s₁.perform (.eliminate turnOff) = .ok (.flag false, s₂) ∧
        s₂.consistent = false ∧ s₂.run more = .ok (answers₂, s) ∧ .reset ∉ more) ∧
      (∃ l, s.modelValue l = .ok .unset) ∧ ¬ (History.after [] ops answers).Decisive := by
  have inv := invariant_of_run run
  cases ready : s.modelReady with
  | false => exact .inl (unreadable_of_not_ready ready)
  | true =>
    right
    have undecided : ¬ s.engine.Total := by
      intro total
      obtain ⟨σ, holds⟩ := faithful_of_run (Invariant.fresh config) nofun run ready total
      exact inv.represents.refuted contradicted σ holds
    unfold Engine.Total at undecided
    push Not at undecided
    obtain ⟨v, unset⟩ := undecided
    refine ⟨?_, ?_, ?_⟩
    · rcases exists_contradiction_of_run run contradicted with ⟨inconsistent, -⟩ |
        ⟨before, op, more, answers₁, s₁, answer, s₂, answers₂, split, first, consistent, performed,
          inconsistent, later, kept⟩
      · cases inconsistent.symm.trans (consistent_fresh config)
      · have inv₁ := invariant_of_run first
        have still := ready_of_run (performed_of_perform inv₁ performed).invariant inconsistent later
          kept ready
        obtain ⟨readable, turnOff, rfl, rfl⟩ :=
          eliminates_of_contradiction inv₁ consistent performed inconsistent still
        exact ⟨before, turnOff, more, answers₁, s₁, s₂, answers₂, split, first, consistent,
          ⟨_, if_pos readable⟩, performed, inconsistent, later, kept⟩
    · have few := numVars_le_of_run_from run (Nat.zero_le _)
      exact ⟨Lit.toSigned ⟨v, true⟩,
        modelValue_eq_ok_iff.2 ⟨ready, ⟨v, true⟩, ofSigned_toSigned few _, unset⟩⟩
    · intro decisive
      obtain ⟨σ, values, -⟩ := inv.models ready decisive
      rw [values v] at unset
      cases value : σ v <;> (rw [value] at unset; cases unset)

/-- A model that could be read cannot be read any more once a clause contradicts it. -/
def refutedOperations : List Operation :=
  [.newVar .unset true, .addClause [1], .solve false false, .addClause [-1]]

theorem unreadable_of_contradiction_refutedOperations : ∃ answers s,
    (fresh {}).run refutedOperations = .ok (answers, s) ∧ s.consistent = false ∧ s.Unreadable := by
  have ran : Yields ((fresh {}).run refutedOperations) fun out => out.2.consistent = false := by
    decide +kernel
  obtain ⟨⟨answers, s⟩, run, contradicted⟩ := ran
  refine ⟨answers, s, run, contradicted, ?_⟩
  rcases unreadable_of_contradiction run contradicted with unreadable |
    ⟨⟨before, turnOff, more, _, _, _, _, split, -⟩, -⟩
  · exact unreadable
  · have mem : Operation.eliminate turnOff ∈ refutedOperations := by simp [split]
    simp [refutedOperations] at mem

/-- Two variables on which the search must not branch, and all four clauses on both: the solve has
nothing to decide, and the resolvents on the first variable contradict each other. -/
def undecidableOperations : List Operation :=
  [.newVar .unset false, .newVar .unset false, .addClause [1, 2], .addClause [1, -2],
    .addClause [-1, 2], .addClause [-1, -2], .solve false false, .eliminate false]

/-- The session is contradicted then, and its model can be read. -/
theorem readable_of_contradiction : ∃ answers s,
    (fresh {}).run undecidableOperations = .ok (answers, s) ∧ s.consistent = false ∧
      s.model = .ok [false, false, false] := by
  have ran : Yields ((fresh {}).run undecidableOperations) fun out =>
      out.2.consistent = false ∧ out.2.model = .ok [false, false, false] := by
    decide +kernel
  obtain ⟨⟨answers, s⟩, run, contradicted, model⟩ := ran
  exact ⟨answers, s, run, contradicted, model⟩

end Session

end IncrementalSat
