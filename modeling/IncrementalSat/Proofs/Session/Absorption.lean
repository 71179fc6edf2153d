import IncrementalSat.Proofs.Session.Rejection

/-!
# Contradictions are final

Once a session is contradicted, it answers no to everything that sets the engine to work, and the
engine does no work any more: the stored clauses, the literals that are true for good, the eliminated
variables and all counts stay as they are until the session is reset. Only the caller changes what is
frozen.
-/
namespace IncrementalSat

/-- What the operation makes of the frozen mark of the variable with number `k`, if only the caller
has a say in it. -/
def Operation.refreeze (k : Nat) (frozen : Bool) : Operation → Bool
  | .setFrozen l b => if l.toInt.natAbs = k + 1 then b else frozen
  | .thaw => false
  | _ => frozen

namespace Session

variable {config : Config} {h : History} {s s' s'' : Session} {op : Operation} {answer : Answer}
  {ops more : List Operation} {answers answers' : List Answer}

/-! ## What stays -/

/-- The stored clauses in their order, each with the mark whether it was learnt. -/
def stored (s : Session) : List (Bool × List (Literal Nat)) :=
  s.engine.store.live.map fun x => (x.2.learnt, x.2.lits.map Lit.toLiteral)

/-- The literals that are true for good, in the order in which they became true. -/
def fixed (s : Session) : List (Literal Nat) := s.engine.fixed.map Lit.toLiteral

/-- The variable with number `k` is frozen. -/
def frozenAt (s : Session) (k : Nat) : Bool :=
  if allocated : k < s.numVars then s.engine.isFrozen ⟨k, allocated⟩ else false

/-- The engine of the second session has not worked since the first one, and the frozen marks are what
the caller made of them. -/
structure Rests (s s' : Session) (refreeze : Nat → Bool → Bool) : Prop where
  numVars : s.numVars ≤ s'.numVars
  consistent : s'.consistent = s.consistent
  stored : s'.stored = s.stored
  fixed : s'.fixed = s.fixed
  frozen : ∀ k, k < s.numVars → s'.frozenAt k = refreeze k (s.frozenAt k)
  stats : s'.engine.stats = s.engine.stats
  propagations : s'.engine.propagations = s.engine.propagations

namespace Rests

variable {refreeze refreeze' : Nat → Bool → Bool}

theorem refl (s : Session) : s.Rests s fun _ frozen => frozen :=
  ⟨Nat.le_refl _, rfl, rfl, rfl, fun _ _ => rfl, rfl, rfl⟩

theorem trans (first : s.Rests s' refreeze) (second : s'.Rests s'' refreeze') :
    s.Rests s'' fun k frozen => refreeze' k (refreeze k frozen) where
  numVars := Nat.le_trans first.numVars second.numVars
  consistent := second.consistent.trans first.consistent
  stored := second.stored.trans first.stored
  fixed := second.fixed.trans first.fixed
  frozen := by
    intro k old
    rw [second.frozen k (Nat.lt_of_lt_of_le old first.numVars), first.frozen k old]
  stats := second.stats.trans first.stats
  propagations := second.propagations.trans first.propagations

/-- Operations that only change marks and the model. -/
theorem of_engine {e : Engine s.numVars} (propagator : e.toPropagator = s.engine.toPropagator)
    (stats : e.stats = s.engine.stats)
    (frozen : ∀ v : Fin s.numVars, e.isFrozen v = refreeze v (s.engine.isFrozen v)) (config : Config)
    (solved ready : Bool) : s.Rests ⟨s.numVars, e, config, solved, ready⟩ refreeze where
  numVars := Nat.le_refl _
  consistent := congrArg Propagator.consistent propagator
  stored := by
    unfold Session.stored
    dsimp only
    rw [propagator]
  fixed := by
    unfold Session.fixed
    dsimp only
    rw [propagator]
  frozen := by
    intro k old
    unfold frozenAt
    rw [dif_pos old, dif_pos old]
    exact frozen ⟨k, old⟩
  stats := stats
  propagations := congrArg Propagator.propagations propagator

/-- A new variable is in no clause, has no value and is not frozen. -/
theorem of_newVar {polarity : Truth} {decision : Bool} {e : Engine (s.numVars + 1)}
    (grown : s.engine.newVar polarity decision = .ok e) (config : Config) (solved ready : Bool) :
    s.Rests ⟨s.numVars + 1, e, config, solved, ready⟩ fun _ frozen => frozen := by
  obtain ⟨order, -, result⟩ := bind_eq_ok_iff.1 grown
  cases result
  refine ⟨Nat.le_succ _, rfl, ?_, ?_, ?_, rfl, rfl⟩
  · change s.engine.store.grow.live.map _ = _
    rw [ClauseStore.live_grow, List.map_map]
    refine List.map_congr_left fun x _ => ?_
    change (x.2.learnt, x.2.grow.lits.map Lit.toLiteral) = (x.2.learnt, x.2.lits.map Lit.toLiteral)
    rw [Clause.lits_grow, List.map_map]
    rfl
  · change s.engine.trail.grow.lits.toList.map Lit.toLiteral = _
    change (s.engine.trail.lits.map Lit.grow).toList.map Lit.toLiteral = _
    rw [Array.toList_map, List.map_map]
    rfl
  · intro k old
    unfold frozenAt
    rw [dif_pos (Nat.lt_succ_of_lt old), dif_pos old]
    exact Vector.get_push_castSucc s.engine.marks.frozen false ⟨k, old⟩

end Rests

/-! ## Operations on a contradicted session -/

section

variable (inv : Invariant h s) (contradicted : s.consistent = false)

include inv contradicted

/-- An operation that sets the engine to work answers no at once, unless a literal is refused. All
that may change is that the model is dropped. -/
theorem perform_of_contradicted (engages : op.engages (.flag false) = true)
    (usable : ∀ lits, op.checked? = some lits → ∃ ms, s.usableLiterals lits = .ok ms) :
    ∃ e solved ready, s.perform op = .ok (.flag false, ⟨s.numVars, e, s.config, solved, ready⟩) ∧
      (e = s.engine ∨ e = { s.engine with model := #[] }) := by
  have represents := inv.represents
  have solves : ∀ as simplify turnOff, s.engine.solve as simplify turnOff =
      .ok (false, { s.engine with model := #[] }) := Engine.solve_of_contradicted contradicted
  cases op with
  | addClause lits =>
    obtain ⟨ms, read⟩ := usable lits rfl
    refine ⟨s.engine, s.solvedByStrategy, false, ?_, .inl rfl⟩
    change s.addClause lits >>= _ = _
    unfold addClause
    rw [read]
    dsimp only
    rw [represents.addClause_of_contradicted contradicted]
    rfl
  | solve simplify turnOff =>
    refine ⟨{ s.engine with model := #[] }, s.solvedByStrategy, false, ?_, .inr rfl⟩
    change s.solve simplify turnOff >>= _ = _
    unfold solve
    rw [solves]
    rfl
  | solveAssuming assumptions simplify turnOff =>
    obtain ⟨ms, read⟩ := usable assumptions rfl
    refine ⟨{ s.engine with model := #[] }, s.solvedByStrategy, false, ?_, .inr rfl⟩
    change s.solveAssuming assumptions simplify turnOff >>= _ = _
    unfold solveAssuming
    rw [read]
    dsimp only
    rw [solves]
    rfl
  | solveByStrategy assumptions =>
    obtain ⟨ms, read⟩ := usable assumptions rfl
    refine ⟨{ s.engine with model := #[] }, true, false, ?_, .inr rfl⟩
    change (s.solveAssuming assumptions _ _ >>= _) >>= _ = _
    unfold solveAssuming
    rw [read]
    dsimp only
    rw [solves]
    rfl
  | simplify =>
    refine ⟨s.engine, s.solvedByStrategy, s.modelReady, ?_, .inl rfl⟩
    change s.simplify >>= _ = _
    unfold simplify
    rw [represents.simplify_of_contradicted contradicted]
    rfl
  | eliminate turnOff =>
    refine ⟨s.engine, s.solvedByStrategy, s.modelReady, ?_, .inl rfl⟩
    change s.eliminate turnOff >>= _ = _
    unfold eliminate
    rw [represents.eliminate_of_contradicted contradicted]
    rfl
  | _ => cases engages

/-- Operations that would set the engine to work do nothing to it, rejected or not. -/
theorem rests_of_engaging (performed : s.perform op = .ok (answer, s'))
    (engages : op.engages (.flag false) = true) : s.Rests s' fun _ frozen => frozen := by
  by_cases usable : ∀ lits, op.checked? = some lits → ∃ ms, s.usableLiterals lits = .ok ms
  · obtain ⟨e, solved, ready, answered, same⟩ :=
      perform_of_contradicted inv contradicted engages usable
    cases performed.symm.trans answered
    rcases same with rfl | rfl
    · exact .of_engine rfl rfl (fun _ => rfl) _ _ _
    · exact .of_engine (e := { s.engine with model := #[] }) rfl rfl (fun _ => rfl) _ _ _
  · push Not at usable
    obtain ⟨lits, checks, refused⟩ := usable
    cases read : s.usableLiterals lits with
    | ok ms => exact absurd read (refused ms)
    | error e =>
      have rejected := performed.symm.trans (perform_of_error checks read)
      rw [(Prod.mk.inj (Except.ok.inj rejected)).2]
      split
      · exact .of_engine rfl rfl (fun _ => rfl) _ _ _
      · exact .refl s

end

/-- A call that sets something of a variable, or is rejected. -/
theorem rests_of_update {l : Int32} {f : Lit s.numVars → Session} {refreeze : Nat → Bool → Bool}
    (rejected : (∀ m, s.literal l ≠ .ok m) → s.Rests s refreeze)
    (changed : ∀ m, s.literal l = .ok m → s.Rests (f m) refreeze)
    (updated : s.update (s.literal l >>= fun m => pure (f m)) = (answer, s')) :
    s.Rests s' refreeze := by
  cases read : s.literal l with
  | error e =>
    rw [read] at updated
    cases updated
    exact rejected fun m found => by cases read.symm.trans found
  | ok m =>
    rw [read] at updated
    cases updated
    exact changed m read

/-- The mark of a variable is set by the literals of that variable and no others. -/
theorem rests_of_setFrozen {l : Int32} {b : Bool} (few : s.numVars ≤ maxVars)
    (updated : s.update (s.setFrozen l b) = (answer, s')) :
    s.Rests s' fun k frozen => (Operation.setFrozen l b).refreeze k frozen := by
  refine rests_of_update (f := fun m => { s with engine := s.engine.setFrozen m.var b }) ?_ ?_ updated
  · intro refused
    refine { Rests.refl s with frozen := fun k old => ?_ }
    change s.frozenAt k = if l.toInt.natAbs = k + 1 then b else s.frozenAt k
    rw [if_neg]
    intro named
    have nonzero : l ≠ 0 := by
      rintro rfl
      cases named
    have negatable : l ≠ Int32.minValue := by
      rintro rfl
      change 2147483648 = k + 1 at named
      unfold maxVars at few
      omega
    obtain ⟨m, read, -⟩ := exists_literal nonzero negatable (named.trans_le old)
    exact refused m (literal_eq_ok_iff.2 read)
  · intro m read
    have named : l.toInt.natAbs = m.var.val + 1 := by
      obtain ⟨nonzero, -⟩ := Literal.valid_of_ofSigned (literal_spec read)
      have var : m.var.val = l.toInt.natAbs - 1 :=
        congrArg Literal.var (Literal.eq_of_ofSigned (literal_spec read))
      omega
    refine Rests.of_engine (s := s) (e := s.engine.setFrozen m.var b) rfl rfl (fun v => ?_) _ _ _
    change (s.engine.marks.frozen.set m.var b).get v =
      if l.toInt.natAbs = v.val + 1 then b else s.engine.isFrozen v
    rw [Vector.get_set, named]
    simp only [Nat.add_right_cancel_iff, Fin.val_inj]
    rfl

/-- Only a reset wakes a contradicted session up. -/
theorem rests_of_perform (inv : Invariant h s) (few : s.numVars ≤ maxVars)
    (contradicted : s.consistent = false) (performed : s.perform op = .ok (answer, s'))
    (kept : op ≠ .reset) : s.Rests s' fun k frozen => op.refreeze k frozen := by
  cases op with
  | newVar polarity decision =>
    cases effect_of_perform performed with
    | allocated _ grown => exact .of_newVar grown _ _ _
    | marked stays => cases stays 0
    | solved asked => cases asked
  | setPolarity l polarity =>
    exact rests_of_update (fun _ => .refl s)
      (fun m _ => .of_engine (e := s.engine.setPolarity m.var polarity) rfl rfl (fun _ => rfl) _ _ _)
      (Except.ok.inj performed)
  | setDecision l decision =>
    exact rests_of_update (fun _ => .refl s)
      (fun m _ => .of_engine (e := s.engine.setDecision m.var decision) rfl rfl (fun _ => rfl) _ _ _)
      (Except.ok.inj performed)
  | setFrozen l frozen => exact rests_of_setFrozen few (Except.ok.inj performed)
  | thaw =>
    cases performed
    refine .of_engine (e := s.engine.thaw) rfl rfl (fun v => ?_) _ _ _
    exact Vector.getElem_replicate v.isLt
  | reset => exact absurd rfl kept
  | addClause => exact rests_of_engaging inv contradicted performed rfl
  | solve => exact rests_of_engaging inv contradicted performed rfl
  | solveAssuming => exact rests_of_engaging inv contradicted performed rfl
  | solveByStrategy => exact rests_of_engaging inv contradicted performed rfl
  | simplify => exact rests_of_engaging inv contradicted performed rfl
  | eliminate => exact rests_of_engaging inv contradicted performed rfl
  | _ =>
    cases performed
    exact .refl s

theorem rests_of_run (inv : Invariant h s) (few : s.numVars ≤ maxVars)
    (contradicted : s.consistent = false) (run : s.run ops = .ok (answers, s')) (kept : .reset ∉ ops) :
    s.Rests s' fun k frozen => ops.foldl (Operation.refreeze k) frozen := by
  induction ops generalizing h s answers with
  | nil =>
    cases run
    exact .refl _
  | cons op ops ih =>
    obtain ⟨answer, s₁, rest, performed, later, -⟩ := exists_of_run_cons run
    have first := rests_of_perform inv few contradicted performed
      fun same => kept (same ▸ List.mem_cons_self)
    have inv₁ := (performed_of_perform inv performed).invariant
    exact first.trans (ih inv₁ (numVars_le_of_perform performed few)
      (first.consistent.trans contradicted) later fun mem => kept (List.mem_cons_of_mem _ mem))

/-- Whatever is done on a contradicted session before a reset, it stays contradicted, and its clauses,
the literals that are true for good, the eliminated variables and all counts stay as they are. A
variable is frozen if the caller has said so. Every operation that sets the engine to work answers no,
unless something is wrong with its literals. -/
theorem contradiction_is_absorbing (run : (fresh config).run ops = .ok (answers, s))
    (contradicted : s.consistent = false) (later : s.run more = .ok (answers', s'))
    (kept : .reset ∉ more) :
    s'.consistent = false ∧ s'.stored = s.stored ∧ s'.fixed = s.fixed ∧
      s'.engine.trail.level = 0 ∧ (∀ k, s'.Eliminated k ↔ s.Eliminated k) ∧
      (∀ k, k < s.numVars →
        s'.frozenAt k = more.foldl (Operation.refreeze k) (s.frozenAt k)) ∧
      s'.engine.stats = s.engine.stats ∧ s'.engine.propagations = s.engine.propagations ∧
      ∀ op, op.engages (.flag false) = true →
        (∀ lits, op.checked? = some lits → ∀ l ∈ lits, ∀ e, ¬ s'.Offends l e) →
          ∃ s'', s'.perform op = .ok (.flag false, s'') := by
  have inv := invariant_of_run run
  have few := numVars_le_of_run_from run (Nat.zero_le _)
  have inv' := Invariant.of_run inv later
  have rests := rests_of_run inv few contradicted later kept
  have still := rests.consistent.trans contradicted
  refine ⟨still, rests.stored, rests.fixed, inv'.represents.root,
    (retains_of_run inv (.inr contradicted) later kept).eliminated, rests.frozen, rests.stats,
    rests.propagations, fun op engages fine => ?_⟩
  have usable : ∀ lits, op.checked? = some lits → ∃ ms, s'.usableLiterals lits = .ok ms := by
    intro lits checks
    cases read : s'.usableLiterals lits with
    | ok ms => exact ⟨ms, rfl⟩
    | error e =>
      obtain ⟨before, l, after, rfl, -, offends⟩ := usableLiterals_eq_error_iff.1 read
      exact absurd offends (fine _ checks l (by simp) e)
  obtain ⟨e, solved, ready, answered, -⟩ := perform_of_contradicted inv' still engages usable
  exact ⟨_, answered⟩

/-- An elimination that met a contradiction on its way, and what is done afterwards. -/
def abandonedOperations : List Operation :=
  contradictoryOperations ++ [.setFrozen 2 true, .eliminate false]

theorem contradiction_is_absorbing_abandonedOperations : ∃ answers s answers' s',
    (fresh {}).run abandonedOperations = .ok (answers, s) ∧ s.consistent = false ∧
      s.run [.newVar .unset true, .setFrozen (-2) false, .addClause [3], .solve true true, .eliminate true] =
        .ok (answers', s') ∧
      s'.consistent = false ∧ s'.stored = s.stored ∧ s.frozenAt 1 = true ∧ s'.frozenAt 1 = false ∧
      ∃ s'', s'.perform (.solveAssuming [-3] true false) = .ok (.flag false, s'') := by
  have ran : Yields ((fresh {}).run abandonedOperations) fun out =>
      out.2.consistent = false ∧ out.2.numVars = 2 ∧ out.2.frozenAt 1 = true ∧
        Yields (out.2.run [.newVar .unset true, .setFrozen (-2) false, .addClause [3], .solve true true,
          .eliminate true]) fun out' => (out'.2.usableLiterals [-3]).toOption.isSome = true := by
    decide +kernel
  obtain ⟨⟨answers, s⟩, run, contradicted, two, frozen, ⟨answers', s'⟩, later, usable⟩ := ran
  obtain ⟨still, stored, -, -, -, refrozen, -, -, answered⟩ :=
    contradiction_is_absorbing run contradicted later (by decide)
  have mark := refrozen 1 (by rw [two]; decide)
  rw [frozen] at mark
  refine ⟨answers, s, answers', s', run, contradicted, later, still, stored, frozen, mark,
    answered (.solveAssuming [-3] true false) rfl ?_⟩
  intro lits checks
  cases checks
  cases read : s'.usableLiterals [-3] with
  | ok ms => exact not_offends_of_usableLiterals read
  | error e =>
    rw [read] at usable
    cases usable

end Session

end IncrementalSat
