import IncrementalSat.Proofs.Engine.Retention
import IncrementalSat.Proofs.Session.Preservation

/-!
# Turning elimination off is final

Elimination is off in a session that was created with the strategy never to eliminate, after an
operation that turns it off, and, if only the first solve by strategy is to eliminate, after that
solve. A rejected operation does none of this. From then on, until the session is reset, no operation
changes which variables are eliminated or which clauses were removed with them.
-/
namespace IncrementalSat

namespace Operation

/-- The operation, answered like this, turns elimination off. -/
def turnsOff (strategy : Strategy) : Operation → Answer → Bool
  | .eliminate turnOff, _ => turnOff
  | .solve _ turnOff, _ => turnOff
  | .solveAssuming _ _ turnOff, .flag _ => turnOff
  | .solveByStrategy _, .flag _ => strategy = .once
  | _, _ => false

theorem turnsOff_of_quiet {op : Operation} {answer : Answer} (quiet : op.engages answer = false)
    (strategy : Strategy) : op.turnsOff strategy answer = false := by
  cases op with
  | solve => cases quiet
  | eliminate => cases quiet
  | solveAssuming =>
    cases answer with
    | flag => cases quiet
    | _ => rfl
  | solveByStrategy =>
    cases answer with
    | flag => cases quiet
    | _ => rfl
  | _ => rfl

end Operation

namespace History

variable {strategy : Strategy} {h : History} {op : Operation} {answer : Answer}

/-- Elimination has been turned off. -/
def TurnedOff (strategy : Strategy) (h : History) : Prop :=
  strategy = .never ∨ ∃ x ∈ h, x.1.turnsOff strategy x.2 = true

/-- A solve by strategy has been accepted. -/
def SolvedByStrategy (h : History) : Prop := ∃ as sat, (.solveByStrategy as, .flag sat) ∈ h

theorem turnedOff_record_iff (other : op ≠ .reset) : (h.record op answer).TurnedOff strategy ↔
    op.turnsOff strategy answer = true ∨ h.TurnedOff strategy := by
  rw [h.record_of_ne other]
  unfold TurnedOff
  rw [List.exists_mem_cons_iff]
  exact or_left_comm

/-- A solve by strategy counts, unless it is rejected. -/
theorem solvedByStrategy_record_iff (other : op ≠ .reset) : (h.record op answer).SolvedByStrategy ↔
    (op.byStrategy = true ∧ op.engages answer = true) ∨ h.SolvedByStrategy := by
  rw [h.record_of_ne other]
  unfold SolvedByStrategy
  constructor
  · rintro ⟨as, sat, mem⟩
    rcases List.mem_cons.1 mem with same | mem
    · cases same
      exact .inl ⟨rfl, rfl⟩
    · exact .inr ⟨as, sat, mem⟩
  · rintro (⟨strategy, engaged⟩ | ⟨as, sat, mem⟩)
    · cases op with
      | solveByStrategy as =>
        cases answer with
        | flag sat => exact ⟨as, sat, List.mem_cons_self⟩
        | _ => cases engaged
      | _ => cases strategy
    · exact ⟨as, sat, List.mem_cons_of_mem _ mem⟩

end History

namespace Session

variable {config : Config} {h : History} {s s' s'' : Session} {op : Operation} {answer : Answer}
  {ops : List Operation} {answers : List Answer}

/-- The variable with this number was eliminated. -/
def Eliminated (s : Session) (k : Nat) : Prop :=
  ∃ v : Fin s.numVars, v.val = k ∧ s.engine.isEliminated v = true

/-- The eliminations, the latest first, each with the clauses that were removed. -/
def eliminationStack (s : Session) : List (Nat × Formula) :=
  s.engine.eliminations.map Elimination.named

/-- The same variables are eliminated, and the same clauses were removed with them. -/
structure Retains (s s' : Session) : Prop where
  eliminated : ∀ k, s'.Eliminated k ↔ s.Eliminated k
  stack : s'.eliminationStack = s.eliminationStack

theorem Retains.refl (s : Session) : s.Retains s := ⟨fun _ => Iff.rfl, rfl⟩

theorem Retains.trans (first : s.Retains s') (second : s'.Retains s'') : s.Retains s'' where
  eliminated := fun k => (second.eliminated k).trans (first.eliminated k)
  stack := second.stack.trans first.stack

theorem Retains.of_engine {e : Engine s.numVars} (kept : s.engine.Retains e) (config : Config)
    (solved ready : Bool) : s.Retains ⟨s.numVars, e, config, solved, ready⟩ where
  eliminated := by
    intro k
    unfold Eliminated Engine.isEliminated
    dsimp only
    rw [kept.eliminated]
  stack := congrArg (List.map Elimination.named) kept.eliminations

/-- A new variable is not eliminated. -/
theorem Retains.of_newVar {polarity : Truth} {decision : Bool} {e : Engine (s.numVars + 1)}
    (grown : s.engine.newVar polarity decision = .ok e) (config : Config) (solved ready : Bool) :
    s.Retains ⟨s.numVars + 1, e, config, solved, ready⟩ := by
  obtain ⟨order, -, result⟩ := bind_eq_ok_iff.1 grown
  cases result
  constructor
  · intro k
    constructor
    · rintro ⟨v, rfl, gone⟩
      cases v using Fin.lastCases with
      | last => cases (Vector.get_push_last s.engine.marks.eliminated false).symm.trans gone
      | cast w =>
        exact ⟨w, rfl, (Vector.get_push_castSucc s.engine.marks.eliminated false w).symm.trans gone⟩
    · rintro ⟨v, rfl, gone⟩
      exact ⟨v.castSucc, rfl, (Vector.get_push_castSucc s.engine.marks.eliminated false v).trans gone⟩
  · unfold eliminationStack
    rw [List.map_map]
    exact List.map_congr_left fun x _ => x.named_grow

/-! ## While elimination is off -/

/-- Only a reset lets a session eliminate again. -/
theorem retains_of_perform (inv : Invariant h s) (settled : s.engine.Settled)
    (performed : s.perform op = .ok (answer, s')) (kept : op ≠ .reset) :
    s.Retains s' ∧ s'.engine.Settled := by
  have represents := inv.represents
  cases effect_of_perform performed with
  | allocated _ grown =>
    refine ⟨.of_newVar grown _ _ _, ?_⟩
    obtain ⟨order, -, result⟩ := bind_eq_ok_iff.1 grown
    cases result
    exact settled
  | restarted => exact absurd rfl kept
  | marked _ frame eliminated =>
    refine ⟨.of_engine ⟨eliminated, by rw [frame]⟩ _ _ _, ?_⟩
    rw [frame]
    exact settled
  | added _ added =>
    obtain ⟨⟨ok, p⟩, inner, frame⟩ := bind_eq_ok_iff.1 added
    cases frame
    refine ⟨.of_engine (s := s) (e := { s.engine with toPropagator := p }) ⟨rfl, rfl⟩ _ _ _,
      settled.imp_right fun contradicted => ?_⟩
    rw [represents.addClause_of_contradicted contradicted] at added
    rw [← (Prod.mk.inj (Except.ok.inj added)).2]
    exact contradicted
  | simplified simplified =>
    obtain ⟨⟨ok, p⟩, inner, frame⟩ := bind_eq_ok_iff.1 simplified
    cases frame
    refine ⟨.of_engine (s := s) (e := { s.engine with toPropagator := p }) ⟨rfl, rfl⟩ _ _ _,
      settled.imp_right fun contradicted => ?_⟩
    rw [represents.simplify_of_contradicted contradicted] at simplified
    rw [← (Prod.mk.inj (Except.ok.inj simplified)).2]
    exact contradicted
  | eliminated eliminated =>
    obtain ⟨retains, settled'⟩ := represents.retains_of_eliminate settled eliminated
    exact ⟨.of_engine retains _ _ _, settled'⟩
  | solved _ allocated solved =>
    obtain ⟨retains, settled'⟩ := represents.retains_of_solve settled allocated solved
    exact ⟨.of_engine retains _ _ _, settled'⟩

theorem retains_of_run (inv : Invariant h s) (settled : s.engine.Settled)
    (run : s.run ops = .ok (answers, s')) (kept : .reset ∉ ops) : s.Retains s' :=
  related_of_run (P := fun s => s.engine.Settled) .refl .trans retains_of_perform inv settled run kept

/-! ## Turning it off -/

/-- The session knows what its history says about elimination. -/
structure Switched (config : Config) (h : History) (s : Session) : Prop where
  same : s.config = config
  counted : s.solvedByStrategy = true ↔ h.SolvedByStrategy
  settled : h.TurnedOff config.strategy → s.engine.Settled

theorem Switched.fresh (config : Config) : Switched config [] (fresh config) where
  same := rfl
  counted := by
    constructor
    · nofun
    · rintro ⟨_, _, mem⟩
      cases mem
  settled := by
    rintro (never | ⟨_, mem, -⟩)
    · left
      unfold Session.fresh
      dsimp only
      rw [if_pos never]
      rfl
    · cases mem

/-- A solve that turns elimination off is told to, unless it is left to the strategy and not the
first one. -/
theorem turnOff_of_turnsOff {as : List (Literal Nat)} {sat : Bool} (asked : op.assumptions? = some as)
    (off : op.turnsOff s.config.strategy (.flag sat) = true) :
    (s.flagsOf op).2 = true ∨ s.solvedByStrategy = true ∧ s.config.strategy = .once := by
  cases op with
  | solve => exact .inl off
  | solveAssuming => exact .inl off
  | solveByStrategy =>
    have once : s.config.strategy = .once := of_decide_eq_true off
    cases solved : s.solvedByStrategy with
    | true => exact .inr ⟨rfl, once⟩
    | false =>
      left
      unfold flagsOf strategyFlags
      dsimp only
      rw [once, solved]
      rfl
  | _ => cases asked

/-- Elimination is off once it was turned off before or is turned off now. -/
theorem Switched.settled_of_perform (switched : Switched config h s) (inv : Invariant h s)
    (performed : s.perform op = .ok (answer, s')) (other : op ≠ .reset)
    (off : (h.record op answer).TurnedOff config.strategy) : s'.engine.Settled := by
  have before : h.TurnedOff config.strategy → s'.engine.Settled := fun off =>
    (retains_of_perform inv (switched.settled off) performed other).2
  rcases (History.turnedOff_record_iff other).1 off with now | off
  · rw [← switched.same] at now
    cases effect_of_perform performed with
    | allocated => cases now
    | restarted => exact absurd rfl other
    | marked _ _ _ quiet =>
      rw [Operation.turnsOff_of_quiet quiet] at now
      cases now
    | added => cases now
    | simplified => cases now
    | @eliminated turnOff _ _ eliminated =>
      cases turnOff with
      | true => exact inv.represents.settled_of_eliminate eliminated
      | false => cases now
    | solved asked allocated solved =>
      rcases turnOff_of_turnsOff asked now with told | ⟨counted, once⟩
      · rw [told] at solved
        exact inv.represents.settled_of_solve allocated solved
      · obtain ⟨as, sat, mem⟩ := switched.counted.1 counted
        refine before (.inr ⟨_, mem, ?_⟩)
        rw [← switched.same]
        exact decide_eq_true once
  · exact before off

theorem Switched.perform (switched : Switched config h s) (inv : Invariant h s)
    (performed : s.perform op = .ok (answer, s')) : Switched config (h.record op answer) s' := by
  by_cases other : op = .reset
  · subst other
    cases performed
    rw [h.record_reset, ← switched.same]
    exact .fresh s.config
  · refine ⟨?_, ?_, switched.settled_of_perform inv performed other⟩
    · cases effect_of_perform performed with
      | restarted => exact absurd rfl other
      | _ => exact switched.same
    · rw [History.solvedByStrategy_record_iff other, ← switched.counted]
      cases effect_of_perform performed with
      | allocated => simp [Operation.byStrategy]
      | restarted => exact absurd rfl other
      | marked _ _ _ quiet => simp [quiet]
      | added => simp [Operation.byStrategy]
      | simplified => simp [Operation.byStrategy]
      | eliminated => simp [Operation.byStrategy]
      | solved asked =>
        cases op with
        | solveByStrategy => simp [Operation.byStrategy, Operation.engages]
        | solve => simp [Operation.byStrategy]
        | solveAssuming => simp [Operation.byStrategy]
        | _ => cases asked

theorem Switched.run (switched : Switched config h s) (inv : Invariant h s)
    (run : s.run ops = .ok (answers, s')) : Switched config (h.after ops answers) s' :=
  preserved_of_run (fun inv switched => switched.perform inv) inv switched run

/-- Once elimination is turned off, nothing that is done before a reset changes what is eliminated.
If the first solve by strategy is to turn it off, that is the first one to be accepted: until then
the strategy asks to eliminate and to turn elimination off, afterwards for neither. -/
theorem turning_off_is_final (run : (fresh config).run ops = .ok (answers, s)) :
    ((History.after [] ops answers).TurnedOff config.strategy → ∀ more answers' s',
      s.run more = .ok (answers', s') → .reset ∉ more → s.Retains s') ∧
    (config.strategy = .once →
      (¬ (History.after [] ops answers).SolvedByStrategy → s.strategyFlags = (true, true)) ∧
      ((History.after [] ops answers).SolvedByStrategy → s.strategyFlags = (false, false))) := by
  have inv := invariant_of_run run
  have switched := (Switched.fresh config).run (Invariant.fresh config) run
  refine ⟨fun off more answers' s' later kept => ?_, fun once => ?_⟩
  · exact retains_of_run inv (switched.settled off) later kept
  · have flags : s.strategyFlags = (!s.solvedByStrategy, !s.solvedByStrategy) := by
      unfold strategyFlags
      rw [switched.same, once]
    rw [flags, ← switched.counted]
    constructor
    · intro none
      rw [Bool.not_eq_true] at none
      rw [none]
      rfl
    · intro counted
      rw [counted]
      rfl

/-- The third variable is kept, and the solve turns elimination off. -/
def turnedOffOperations : List Operation :=
  [.newVar .unset true, .newVar .unset true, .newVar .unset true, .setFrozen 2 true,
    .setFrozen 3 true, .addClause [1, 2], .addClause [-2, 3], .solveByStrategy [0],
    .solve true true]

/-- Nothing else is eliminated afterwards, although nothing is frozen then. -/
theorem turning_off_is_final_turnedOffOperations : ∃ answers s answers' s',
    (fresh {}).run turnedOffOperations = .ok (answers, s) ∧
      (History.after [] turnedOffOperations answers).TurnedOff .once ∧ s.Eliminated 0 ∧
      s.strategyFlags = (true, true) ∧
      s.run [.thaw, .newVar .unset true, .addClause [3, 4], .eliminate false, .solve true false] =
        .ok (answers', s') ∧ s.Retains s' := by
  have ran : Yields ((fresh {}).run turnedOffOperations) fun out =>
      (∃ x ∈ History.after [] turnedOffOperations out.1, x.1.turnsOff .once x.2 = true) ∧
        (∀ x ∈ History.after [] turnedOffOperations out.1, x.1.byStrategy = true →
          x.2 = .rejected (.invalidLiteral 0)) ∧
        (∃ v : Fin out.2.numVars, v.val = 0 ∧ out.2.engine.isEliminated v = true) ∧
        Yields (out.2.run [.thaw, .newVar .unset true, .addClause [3, 4], .eliminate false,
          .solve true false]) fun _ => True := by
    decide +kernel
  obtain ⟨⟨answers, s⟩, run, off, rejected, gone, ⟨answers', s'⟩, later, -⟩ := ran
  obtain ⟨final, first⟩ := turning_off_is_final run
  refine ⟨answers, s, answers', s', run, .inr off, gone, (first rfl).1 ?_, later,
    final (.inr off) _ answers' s' later (by decide)⟩
  rintro ⟨as, sat, mem⟩
  cases rejected _ mem rfl

end Session

end IncrementalSat
