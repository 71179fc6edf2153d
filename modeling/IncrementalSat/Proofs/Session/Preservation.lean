import IncrementalSat.Proofs.Session.Effect
import IncrementalSat.Proofs.Session.Invariant

/-!
# What the operations of a session lead to

No operation runs into a fault, short of allocating more variables than signed literals can name,
and each keeps up the invariant. A solve that finds no model refutes the clauses accepted so far
under its assumptions.
-/
namespace IncrementalSat

namespace Session

variable {h : History} {s : Session}

/-- What an operation leads to. -/
structure Performed (h : History) (op : Operation) (answer : Answer) (s' : Session) : Prop where
  invariant : Invariant (h.record op answer) s'
  refuted : ∀ as, op.assumptions? = some as → answer = .flag false →
    ∀ σ, h.accepted.Holds σ → ¬ ∀ a ∈ as, a.Holds σ
  inconsistent : op.assumptions? = some [] → answer = .flag false → s'.consistent = false
  excused : ∀ as, op.assumptions? = some as → answer = .flag true →
    ∀ clause ∈ h.accepted, s'.engine.Falsifies clause → s'.engine.Excuses clause

theorem Invariant.performed {op : Operation} {answer : Answer} {s' : Session}
    (inv : Invariant (h.record op answer) s') (idle : op.assumptions? = none) :
    Performed h op answer s' :=
  ⟨inv, by simp [idle], by simp [idle], by simp [idle]⟩

/-- A rejected operation. -/
theorem Invariant.rejected {op : Operation} {e : Error} {s' : Session}
    (inv : Invariant (h.record op (.rejected e)) s') : Performed h op (.rejected e) s' :=
  ⟨inv, by simp, by simp, by simp⟩

namespace Invariant

variable (inv : Invariant h s)

include inv

/-! ## Variables -/

theorem newVar (room : s.numVars < maxVars) (polarity : Truth) (decision : Bool) :
    Yields (s.newVar polarity decision) fun (l, s') =>
      Invariant (h.record (.newVar polarity decision) (.literal l)) s' := by
  unfold Session.newVar
  rw [if_pos room]
  refine (Engine.newVar_spec inv.represents.wellFormed.heap polarity decision).bind ?_
  intro e grown
  have other : Operation.newVar polarity decision ≠ .reset := nofun
  refine Yields.pure ⟨?_, ?_, nofun⟩
  · rw [h.accepted_record_of_none other rfl]
    exact grown.represents inv.represents
  · intro decisive v
    obtain ⟨decides, decisive⟩ := (h.decisive_record_iff other).1 decisive
    change decision = true at decides
    change e.marks.decision.get v = true ∨ e.isEliminated v = true
    rw [grown.decisions]
    refine Fin.lastCases ?_ (fun w => ?_) v
    · simp [decides]
    · rw [grown.isEliminated]
      simpa using inv.decided decisive w

/-- Operations that set marks of variables. -/
theorem mark {op : Operation} (other : op ≠ .reset) {e : Engine s.numVars}
    (frame : e = { s.engine with marks := e.marks })
    (eliminated : e.marks.eliminated = s.engine.marks.eliminated)
    (decision : op.decides = true → ∀ v : Fin s.numVars,
      s.engine.marks.decision.get v = true → e.marks.decision.get v = true)
    {answer : Answer} (silent : History.clause? (op, answer) = none)
    (idle : op.assumptions? = none) : Performed h op answer { s with engine := e } := by
  have represents : e.Represents h.accepted := by
    have before := inv.represents
    rw [frame]
    exact before.of_eq rfl before.wellFormed.heap before.wellFormed.clear rfl eliminated
  refine Invariant.performed (inv.keep other ?_ ?_ silent idle represents (by rw [frame])) idle
  · intro v gone
    unfold Engine.isEliminated at gone ⊢
    rwa [eliminated]
  · exact fun decides v decide => .inl (decision decides v decide)

/-- Operations on a variable that are rejected if there is no such variable. -/
theorem update {op : Operation} (other : op ≠ .reset)
    (silent : ∀ answer, History.clause? (op, answer) = none) (idle : op.assumptions? = none)
    (l : Int32) {f : Lit s.numVars → Session} (changed : ∀ m, Performed h op .done (f m)) :
    Yields (.ok (s.update (s.literal l >>= fun m => pure (f m)))) fun (answer, s') =>
      Performed h op answer s' := by
  cases s.literal l with
  | error e =>
    have kept : Performed h op (.rejected e) s := (inv.ask other (silent _) idle).rejected
    exact Yields.ok kept
  | ok m => exact Yields.ok (changed m)

/-! ## Clauses -/

theorem addClause (lits : List Int32) : Yields (s.addClause lits) fun (answer, s') =>
    Invariant (h.record (.addClause lits) (.ofExcept .flag answer)) s' := by
  have other : Operation.addClause lits ≠ .reset := nofun
  unfold Session.addClause
  cases read : s.usableLiterals lits with
  | error e => exact Yields.ok (inv.ask other rfl rfl)
  | ok ms =>
    obtain ⟨same, usable⟩ := usableLiterals_spec read
    have free := inv.represents.hygienic.free_of_usable usable
    refine (inv.represents.addClause (fun _ => Lit.var_lt_of_mem_map) free).bind ?_
    rintro ⟨ok, e⟩ ⟨represents, -, frame⟩
    have marks : e.marks = s.engine.marks := by rw [frame]
    have eliminated : ∀ v : Fin s.numVars, e.isEliminated v = s.engine.isEliminated v := by
      intro v
      unfold Engine.isEliminated
      rw [marks]
    have added : History.clause? (Operation.addClause lits, .flag ok) =
        some (ms.map Lit.toLiteral) := congrArg some same
    have unread : false = true → (h.record (.addClause lits) (.flag ok)).Decisive →
        e.Models (h.record (.addClause lits) (.flag ok)).accepted
          (h.record (.addClause lits) (.flag ok)).assumptions := nofun
    refine Yields.pure (inv.step other ?_ ?_ ?_ unread s.config s.solvedByStrategy)
    · exact fun v gone => (eliminated v).trans gone
    · intro _ v decide
      rw [marks]
      exact .inl decide
    · rw [h.accepted_record_of_some other added]
      exact represents

theorem simplify : Yields s.simplify fun (ok, s') =>
    Invariant (h.record .simplify (.flag ok)) s' := by
  unfold Session.simplify
  refine inv.represents.simplify.bind ?_
  rintro ⟨ok, e⟩ ⟨represents, -, frame⟩
  have marks : e.marks = s.engine.marks := by rw [frame]
  have other : Operation.simplify ≠ .reset := nofun
  refine Yields.pure (inv.keep other ?_ ?_ rfl rfl represents (by rw [frame]))
  · unfold Engine.isEliminated
    rw [marks]
    exact fun _ gone => gone
  · rw [marks]
    exact fun _ _ decide => .inl decide

theorem eliminate (turnOff : Bool) : Yields (s.eliminate turnOff) fun (ok, s') =>
    Invariant (h.record (.eliminate turnOff) (.flag ok)) s' := by
  unfold Session.eliminate
  refine (inv.represents.eliminate turnOff).bind ?_
  rintro ⟨ok, e⟩ ⟨represents, -, sheds⟩
  have other : Operation.eliminate turnOff ≠ .reset := nofun
  exact Yields.pure
    (inv.keep other sheds.more (fun _ => sheds.decision) rfl rfl represents sheds.model)

/-! ## Solving -/

/-- Operations that solve under assumptions on variables that were not eliminated. -/
theorem solved {op : Operation} {as : List (Literal Nat)} (other : op ≠ .reset)
    (silent : ∀ answer, History.clause? (op, answer) = none) (asked : op.assumptions? = some as)
    (usable : ∀ l : Lit s.numVars, l.toLiteral ∈ as → s.engine.isEliminated l.var = false)
    {sat : Bool} {e : Engine s.numVars} (solved : Engine.Solved h.accepted as s.engine sat e)
    (config : Config) (byStrategy : Bool) :
    Performed h op (.flag sat) ⟨s.numVars, e, config, byStrategy, sat⟩ := by
  have accepted := h.accepted_record_of_none other (silent (.flag sat))
  refine ⟨inv.step other solved.more (fun _ => solved.decision) (accepted ▸ solved.represents) ?_
    config byStrategy, ?_, ?_, ?_⟩
  · intro found decisive
    rw [accepted, h.assumptions_record_of_some other asked]
    exact solved.models found (inv.decided ((h.decisive_record_iff other).1 decisive).2) usable
  · intro bs eq answer
    obtain rfl : as = bs := Option.some.inj (asked.symm.trans eq)
    exact solved.refuted (by simpa using answer)
  · intro eq answer
    exact solved.inconsistent (by simpa using answer) (Option.some.inj (asked.symm.trans eq))
  · intro bs eq answer
    exact solved.excused (by simpa using answer) usable

theorem solve (simplify turnOff : Bool) : Yields (s.solve simplify turnOff) fun (sat, s') =>
    Performed h (.solve simplify turnOff) (.flag sat) s' := by
  unfold Session.solve
  refine (Engine.solve_spec inv.represents (by simp) simplify turnOff).bind ?_
  rintro ⟨sat, e⟩ solved
  have other : Operation.solve simplify turnOff ≠ .reset := nofun
  exact Yields.pure (inv.solved other (fun _ => rfl) rfl (by simp) solved _ _)

/-- Both operations that solve under assumptions given as signed literals. -/
theorem solveAssuming {op : Operation} {lits : List Int32} (other : op ≠ .reset)
    (silent : ∀ answer, History.clause? (op, answer) = none)
    (asked : op.assumptions? = some (Literal.ofAllSigned lits)) (simplify turnOff : Bool) :
    Yields (s.solveAssuming lits simplify turnOff) fun (answer, s') =>
      ∀ byStrategy, Performed h op (.ofExcept .flag answer)
        { s' with solvedByStrategy := byStrategy } := by
  unfold Session.solveAssuming
  cases read : s.usableLiterals lits with
  | error e =>
    have accepted := h.accepted_record_of_none other (silent (.rejected e))
    have unread : false = true → (h.record op (.rejected e)).Decisive →
        s.engine.Models (h.record op (.rejected e)).accepted
          (h.record op (.rejected e)).assumptions := nofun
    refine Yields.ok fun byStrategy => Invariant.rejected ?_
    exact inv.step other (fun _ gone => gone) (fun _ _ decide => .inl decide)
      (accepted ▸ inv.represents) unread s.config byStrategy
  | ok ms =>
    obtain ⟨same, usable⟩ := usableLiterals_spec read
    rw [same] at asked
    refine (Engine.solve_spec inv.represents (fun _ => Lit.var_lt_of_mem_map) simplify turnOff).bind ?_
    rintro ⟨sat, e⟩ solved
    refine Yields.pure fun byStrategy => inv.solved other silent asked ?_ solved _ _
    intro l hl
    obtain ⟨m, hm, eq⟩ := List.mem_map.1 hl
    have same : m.var = l.var := Fin.ext (congrArg Literal.var eq)
    rw [← same]
    exact usable m hm

end Invariant

/-- No operation runs into a fault, unless it would allocate too many variables. -/
theorem perform_spec (inv : Invariant h s) (op : Operation) :
    (s.perform op = .error .tooManyVariables ∧ maxVars < op.numVarsAfter s.numVars) ∨
      Yields (s.perform op) fun (answer, s') => Performed h op answer s' := by
  cases op with
  | newVar polarity decision =>
    by_cases room : s.numVars < maxVars
    · right
      refine (inv.newVar room polarity decision).bind ?_
      exact fun _ inv' => Yields.pure (inv'.performed rfl)
    · left
      have full : s.newVar polarity decision = .error .tooManyVariables := if_neg room
      refine ⟨?_, Nat.lt_succ_of_le (Nat.le_of_not_lt room)⟩
      change (s.newVar polarity decision >>= _) = _
      rw [full]
      rfl
  | setPolarity l polarity =>
    right
    refine inv.update (by nofun) (fun _ => rfl) rfl l fun m => ?_
    exact inv.mark (e := s.engine.setPolarity m.var polarity) (by nofun) rfl rfl
      (fun _ _ decide => decide) rfl rfl
  | setDecision l decision =>
    right
    refine inv.update (by nofun) (fun _ => rfl) rfl l fun m => ?_
    refine inv.mark (e := s.engine.setDecision m.var decision) (by nofun) rfl rfl
      (fun decides v decide => ?_) rfl rfl
    change decision = true at decides
    change (s.engine.marks.decision.set m.var decision).get v = true
    rw [Vector.get_set]
    split
    · exact decides
    · exact decide
  | setFrozen l frozen =>
    right
    refine inv.update (by nofun) (fun _ => rfl) rfl l fun m => ?_
    exact inv.mark (e := s.engine.setFrozen m.var frozen) (by nofun) rfl rfl
      (fun _ _ decide => decide) rfl rfl
  | thaw =>
    right
    exact Yields.ok (inv.mark (e := s.engine.thaw) (by nofun) rfl rfl
      (fun _ _ decide => decide) rfl rfl)
  | reset =>
    right
    have inv' := Invariant.fresh s.config
    rw [← h.record_reset .done] at inv'
    exact Yields.ok (inv'.performed rfl)
  | addClause lits =>
    right
    refine (inv.addClause lits).bind ?_
    exact fun _ inv' => Yields.pure (inv'.performed rfl)
  | solve simplify turnOff =>
    right
    exact (inv.solve simplify turnOff).bind fun _ performed => Yields.pure performed
  | solveAssuming lits simplify turnOff =>
    right
    have other : Operation.solveAssuming lits simplify turnOff ≠ .reset := nofun
    refine (inv.solveAssuming other (fun _ => rfl) rfl simplify turnOff).bind ?_
    exact fun (_, s') performed => Yields.pure (performed s'.solvedByStrategy)
  | solveByStrategy lits =>
    right
    have other : Operation.solveByStrategy lits ≠ .reset := nofun
    obtain ⟨⟨answer, s'⟩, solved, performed⟩ := inv.solveAssuming other (fun _ => rfl) rfl
      s.strategyFlags.1 s.strategyFlags.2
    unfold perform Session.solveByStrategy
    dsimp only
    rw [solved]
    cases answer with
    | error e => exact Yields.pure (performed s'.solvedByStrategy)
    | ok sat => exact Yields.pure (performed true)
  | simplify =>
    right
    exact inv.simplify.bind fun _ inv' => Yields.pure (inv'.performed rfl)
  | eliminate turnOff =>
    right
    exact (inv.eliminate turnOff).bind fun _ inv' => Yields.pure (inv'.performed rfl)
  | _ => exact .inr (Yields.ok ((inv.ask (by nofun) rfl rfl).performed rfl))

/-- What an operation that succeeds leads to. -/
theorem performed_of_perform (inv : Invariant h s) {op : Operation} {answer : Answer} {s' : Session}
    (performed : s.perform op = .ok (answer, s')) : Performed h op answer s' := by
  rcases perform_spec inv op with ⟨full, -⟩ | result
  · rw [full] at performed
    cases performed
  · exact result.of_eq performed

/-- Nor does a run. -/
theorem run_spec (inv : Invariant h s) (ops : List Operation) :
    s.run ops = .error .tooManyVariables ∨
      Yields (s.run ops) fun (answers, s') => Invariant (h.after ops answers) s' := by
  induction ops generalizing h s with
  | nil => exact .inr (Yields.ok inv)
  | cons op ops ih =>
    unfold run
    rcases perform_spec inv op with ⟨full, -⟩ | ⟨⟨answer, s'⟩, performed, result⟩
    · left
      rw [full]
      rfl
    · rw [performed]
      rcases ih result.invariant with full | ⟨⟨answers, s''⟩, ran, inv'⟩
      · left
        change (s'.run ops >>= _) = _
        rw [full]
        rfl
      · right
        change Yields (s'.run ops >>= _) _
        rw [ran]
        exact Yields.pure inv'

/-- What holds after a run of operations, if it held before. -/
theorem Invariant.of_run (inv : Invariant h s) {ops : List Operation} {answers : List Answer}
    {s' : Session} (run : s.run ops = .ok (answers, s')) : Invariant (h.after ops answers) s' := by
  rcases run_spec inv ops with full | result
  · rw [full] at run
    cases run
  · exact result.of_eq run

/-- What every operation preserves still holds after a run of operations. -/
theorem preserved_of_run {P : History → Session → Prop}
    (step : ∀ {h s op answer s'}, Invariant h s → P h s → s.perform op = .ok (answer, s') →
      P (h.record op answer) s') (inv : Invariant h s) (start : P h s) {ops : List Operation}
    {answers : List Answer} {s' : Session} (run : s.run ops = .ok (answers, s')) :
    P (h.after ops answers) s' := by
  induction ops generalizing h s answers with
  | nil =>
    cases run
    exact start
  | cons op ops ih =>
    obtain ⟨answer, s₁, rest, performed, later, rfl⟩ := exists_of_run_cons run
    exact ih (performed_of_perform inv performed).invariant (step inv start performed) later

/-- How a session relates to what each operation makes of it, up to the next reset, is how it
relates to what a run makes of it. The property `P` is one that the operations preserve. -/
theorem related_of_run {R : Session → Session → Prop} {P : Session → Prop} (refl : ∀ s, R s s)
    (trans : ∀ {s s' s''}, R s s' → R s' s'' → R s s'')
    (step : ∀ {h s op answer s'}, Invariant h s → P s → s.perform op = .ok (answer, s') →
      op ≠ .reset → R s s' ∧ P s') (inv : Invariant h s) (start : P s) {ops : List Operation}
    {answers : List Answer} {s' : Session} (run : s.run ops = .ok (answers, s'))
    (kept : .reset ∉ ops) : R s s' := by
  induction ops generalizing h s answers with
  | nil =>
    cases run
    exact refl _
  | cons op ops ih =>
    obtain ⟨answer, s₁, rest, performed, later, -⟩ := exists_of_run_cons run
    obtain ⟨first, next⟩ := step inv start performed fun same => kept (same ▸ List.mem_cons_self)
    exact trans first (ih (performed_of_perform inv performed).invariant next later
      fun mem => kept (List.mem_cons_of_mem _ mem))

/-- What holds after any run of operations on a new session. -/
theorem invariant_of_run {config : Config} {ops : List Operation} {answers : List Answer}
    (run : (fresh config).run ops = .ok (answers, s)) :
    Invariant (History.after [] ops answers) s := (Invariant.fresh config).of_run run

end Session

end IncrementalSat
