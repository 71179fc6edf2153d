import IncrementalSat.Proofs.Checked
import IncrementalSat.Proofs.Session.History

/-!
# What an operation does to the engine

An operation that succeeds allocates a variable, starts over, calls one function of the engine, or
touches nothing of the engine but marks of variables. What has to be known of all operations can be
read off these few effects.
-/
namespace IncrementalSat

namespace Operation

/-- The operation sets the engine to work. A rejected one does not get that far. -/
def engages : Operation → Answer → Bool
  | .addClause _, .flag _ => true
  | .solve _ _, _ => true
  | .solveAssuming _ _ _, .flag _ => true
  | .solveByStrategy _, .flag _ => true
  | .simplify, _ => true
  | .eliminate _, _ => true
  | _, _ => false

/-- The operation is a solve that leaves elimination to the strategy. -/
def byStrategy : Operation → Bool
  | .solveByStrategy _ => true
  | _ => false

end Operation

namespace Session

variable {s s' : Session} {op : Operation} {answer : Answer}

/-- Whether a solve eliminates variables, and whether it turns elimination off. -/
def flagsOf (s : Session) : Operation → Bool × Bool
  | .solve simplify turnOff => (simplify, turnOff)
  | .solveAssuming _ simplify turnOff => (simplify, turnOff)
  | _ => s.strategyFlags

/-- What an operation that succeeds leads to. -/
inductive Effect (s : Session) : Operation → Answer → Session → Prop
  | allocated {polarity : Truth} {decision : Bool} {e : Engine (s.numVars + 1)}
      (room : s.numVars < maxVars) (grown : s.engine.newVar polarity decision = .ok e) :
      Effect s (.newVar polarity decision) (.literal (Literal.toSigned ⟨s.numVars, true⟩))
        ⟨s.numVars + 1, e, s.config, s.solvedByStrategy, false⟩
  | restarted : Effect s .reset .done s.reset
  | marked {op : Operation} {answer : Answer} (stays : ∀ k, op.numVarsAfter k = k)
      {e : Engine s.numVars} (frame : e = { s.engine with marks := e.marks })
      (eliminated : e.marks.eliminated = s.engine.marks.eliminated)
      (quiet : op.engages answer = false) : Effect s op answer
        ⟨s.numVars, e, s.config, s.solvedByStrategy, op.assumptions?.isNone && s.modelReady⟩
  | added {lits : List Int32} {ms : List (Lit s.numVars)} {ok : Bool} {e : Engine s.numVars}
      (read : s.usableLiterals lits = .ok ms)
      (added : s.engine.addClause (ms.map Lit.toLiteral) = .ok (ok, e)) :
      Effect s (.addClause lits) (.flag ok) ⟨s.numVars, e, s.config, s.solvedByStrategy, false⟩
  | simplified {ok : Bool} {e : Engine s.numVars} (simplified : s.engine.simplify = .ok (ok, e)) :
      Effect s .simplify (.flag ok) ⟨s.numVars, e, s.config, s.solvedByStrategy, s.modelReady⟩
  | eliminated {turnOff ok : Bool} {e : Engine s.numVars}
      (eliminated : s.engine.eliminate turnOff = .ok (ok, e)) :
      Effect s (.eliminate turnOff) (.flag ok)
        ⟨s.numVars, e, s.config, s.solvedByStrategy, s.modelReady⟩
  | solved {op : Operation} {as : List (Literal Nat)} (asked : op.assumptions? = some as)
      (allocated : ∀ a ∈ as, a.var < s.numVars) {sat : Bool} {e : Engine s.numVars}
      (solved : s.engine.solve as (s.flagsOf op).1 (s.flagsOf op).2 = .ok (sat, e)) :
      Effect s op (.flag sat)
        ⟨s.numVars, e, s.config, op.byStrategy || s.solvedByStrategy, sat⟩

/-- An operation that changes nothing. -/
theorem Effect.none (stays : ∀ k, op.numVarsAfter k = k) (idle : op.assumptions? = none)
    (quiet : op.engages answer = false) : Effect s op answer s := by
  have effect : Effect s op answer
      ⟨s.numVars, s.engine, s.config, s.solvedByStrategy, op.assumptions?.isNone && s.modelReady⟩ :=
    .marked stays rfl rfl quiet
  rw [idle] at effect
  exact effect

/-- A call that sets something of a variable. -/
theorem effect_of_update (stays : ∀ k, op.numVarsAfter k = k) (idle : op.assumptions? = none)
    (quiet : ∀ answer, op.engages answer = false) {l : Int32} {f : Lit s.numVars → Session}
    (changed : ∀ m, Effect s op .done (f m))
    (updated : s.update (s.literal l >>= fun m => pure (f m)) = (answer, s')) :
    Effect s op answer s' := by
  cases read : s.literal l with
  | error e =>
    rw [read] at updated
    cases updated
    exact .none stays idle (quiet _)
  | ok m =>
    rw [read] at updated
    cases updated
    exact changed m

theorem effect_of_addClause {lits : List Int32} {result : Except Error Bool}
    (added : s.addClause lits = .ok (result, s')) :
    Effect s (.addClause lits) (.ofExcept .flag result) s' := by
  unfold addClause at added
  split at added
  · cases added
    exact .none (fun _ => rfl) rfl rfl
  · next ms read =>
    obtain ⟨⟨ok, e⟩, inner, result⟩ := bind_eq_ok_iff.1 added
    cases result
    exact .added read inner

/-- Both operations that solve under assumptions given as signed literals. What a solve leaves may
still have to be marked as solved by strategy. -/
theorem effect_of_solveAssuming (op : Operation) {lits : List Int32} (stays : ∀ k, op.numVarsAfter k = k)
    (asked : op.assumptions? = some (Literal.ofAllSigned lits))
    (quiet : ∀ e, op.engages (.rejected e) = false) {result : Except Error Bool}
    (solved : s.solveAssuming lits (s.flagsOf op).1 (s.flagsOf op).2 = .ok (result, s')) :
    (∃ e, result = .error e ∧ Effect s op (.rejected e) s') ∨
      ∃ sat e, result = .ok sat ∧ s' = ⟨s.numVars, e, s.config, s.solvedByStrategy, sat⟩ ∧
        Effect s op (.flag sat)
          ⟨s.numVars, e, s.config, op.byStrategy || s.solvedByStrategy, sat⟩ := by
  unfold solveAssuming at solved
  split at solved
  · next e _ =>
    cases solved
    have effect : Effect s op (.rejected e)
        ⟨s.numVars, s.engine, s.config, s.solvedByStrategy, op.assumptions?.isNone && s.modelReady⟩ :=
      .marked stays rfl rfl (quiet e)
    rw [asked] at effect
    exact .inl ⟨e, rfl, effect⟩
  · next ms read =>
    obtain ⟨⟨sat, e⟩, inner, result⟩ := bind_eq_ok_iff.1 solved
    cases result
    rw [(usableLiterals_spec read).1] at asked
    exact .inr ⟨sat, e, rfl, rfl, .solved asked (fun _ => Lit.var_lt_of_mem_map) inner⟩

/-- Every operation that succeeds has one of these effects. -/
theorem effect_of_perform (performed : s.perform op = .ok (answer, s')) : Effect s op answer s' := by
  cases op with
  | newVar polarity decision =>
    obtain ⟨⟨l, s₁⟩, allocated, result⟩ := bind_eq_ok_iff.1 performed
    cases result
    unfold newVar at allocated
    split at allocated
    · next room =>
      obtain ⟨e, grown, result⟩ := bind_eq_ok_iff.1 allocated
      cases result
      exact .allocated room grown
    · cases allocated
  | setPolarity l polarity =>
    refine effect_of_update (fun _ => rfl) rfl (fun _ => rfl) (fun m => ?_)
      (Except.ok.inj performed)
    exact .marked (fun _ => rfl) (e := s.engine.setPolarity m.var polarity) rfl rfl rfl
  | setDecision l decision =>
    refine effect_of_update (fun _ => rfl) rfl (fun _ => rfl) (fun m => ?_)
      (Except.ok.inj performed)
    exact .marked (fun _ => rfl) (e := s.engine.setDecision m.var decision) rfl rfl rfl
  | setFrozen l frozen =>
    refine effect_of_update (fun _ => rfl) rfl (fun _ => rfl) (fun m => ?_)
      (Except.ok.inj performed)
    exact .marked (fun _ => rfl) (e := s.engine.setFrozen m.var frozen) rfl rfl rfl
  | thaw =>
    cases performed
    exact .marked (fun _ => rfl) (e := s.engine.thaw) rfl rfl rfl
  | reset =>
    cases performed
    exact .restarted
  | addClause lits =>
    obtain ⟨⟨answer, s₁⟩, added, result⟩ := bind_eq_ok_iff.1 performed
    cases result
    exact effect_of_addClause added
  | solve simplify turnOff =>
    obtain ⟨⟨sat, s₁⟩, solved, result⟩ := bind_eq_ok_iff.1 performed
    cases result
    obtain ⟨⟨sat, e⟩, inner, result⟩ := bind_eq_ok_iff.1 solved
    cases result
    exact .solved rfl (by simp) inner
  | solveAssuming lits simplify turnOff =>
    obtain ⟨⟨answer, s₁⟩, solved, result⟩ := bind_eq_ok_iff.1 performed
    rcases effect_of_solveAssuming (.solveAssuming lits simplify turnOff) (fun _ => rfl) rfl
      (fun _ => rfl) solved with ⟨e, rfl, effect⟩ | ⟨sat, e, rfl, rfl, effect⟩
    · cases result
      exact effect
    · cases result
      exact effect
  | solveByStrategy lits =>
    obtain ⟨⟨answer, s₁⟩, solved, result⟩ := bind_eq_ok_iff.1 performed
    obtain ⟨⟨answer, s₂⟩, inner, rest⟩ := bind_eq_ok_iff.1 solved
    rcases effect_of_solveAssuming (.solveByStrategy lits) (fun _ => rfl) rfl (fun _ => rfl)
      inner with ⟨e, rfl, effect⟩ | ⟨sat, e, rfl, rfl, effect⟩
    · cases rest
      cases result
      exact effect
    · cases rest
      cases result
      exact effect
  | simplify =>
    obtain ⟨⟨ok, s₁⟩, simplified, result⟩ := bind_eq_ok_iff.1 performed
    cases result
    obtain ⟨⟨ok, e⟩, inner, result⟩ := bind_eq_ok_iff.1 simplified
    cases result
    exact .simplified inner
  | eliminate turnOff =>
    obtain ⟨⟨ok, s₁⟩, eliminated, result⟩ := bind_eq_ok_iff.1 performed
    cases result
    obtain ⟨⟨ok, e⟩, inner, result⟩ := bind_eq_ok_iff.1 eliminated
    cases result
    exact .eliminated inner
  | _ =>
    cases performed
    exact .none (fun _ => rfl) rfl rfl

/-- A run that succeeds succeeds with its first operation and then with the others. -/
theorem exists_of_run_cons {ops : List Operation} {answers : List Answer}
    (run : s.run (op :: ops) = .ok (answers, s')) : ∃ answer s₁ rest,
      s.perform op = .ok (answer, s₁) ∧ s₁.run ops = .ok (rest, s') ∧ answers = answer :: rest := by
  obtain ⟨⟨answer, s₁⟩, first, later⟩ := bind_eq_ok_iff.1 run
  obtain ⟨⟨rest, s₂⟩, later, result⟩ := bind_eq_ok_iff.1 later
  cases result
  exact ⟨answer, s₁, rest, first, later, rfl⟩

/-! ## Numbers of variables -/

/-- Every operation leaves as many variables as it is supposed to. -/
theorem numVars_of_perform (performed : s.perform op = .ok (answer, s')) :
    s'.numVars = op.numVarsAfter s.numVars := by
  cases effect_of_perform performed with
  | marked stays => exact (stays s.numVars).symm
  | solved asked => cases op <;> first | rfl | cases asked
  | _ => rfl

/-- Signed literals can name the variables that an operation leaves. -/
theorem numVars_le_of_perform (performed : s.perform op = .ok (answer, s'))
    (few : s.numVars ≤ maxVars) : s'.numVars ≤ maxVars := by
  cases effect_of_perform performed with
  | allocated room => exact room
  | restarted => exact Nat.zero_le _
  | _ => exact few

theorem numVars_le_of_run_from {ops : List Operation} {answers : List Answer}
    (run : s.run ops = .ok (answers, s')) (few : s.numVars ≤ maxVars) : s'.numVars ≤ maxVars := by
  induction ops generalizing s answers with
  | nil =>
    cases run
    exact few
  | cons op ops ih =>
    obtain ⟨answer, s₁, rest, first, later, -⟩ := exists_of_run_cons run
    exact ih later (numVars_le_of_perform first few)

end Session

end IncrementalSat
