import IncrementalSat.Proofs.Engine.Freezing
import IncrementalSat.Proofs.Session.Absorption

/-!
# Frozen variables in a session

The operations that may eliminate variables spare those that are frozen or named by an assumption, and
leave the frozen marks as the caller set them. So a variable that the caller keeps frozen is never
eliminated, and clauses and assumptions on it are accepted at any time.
-/
namespace IncrementalSat

namespace Operation

/-- The operation may eliminate variables. -/
def eliminates : Operation → Bool
  | .eliminate _ => true
  | op => op.assumptions?.isSome

theorem eliminates_of_asked {op : Operation} {as : List (Literal Nat)}
    (asked : op.assumptions? = some as) : op.eliminates = true := by
  cases op <;> first | rfl | cases asked

theorem numVarsAfter_of_eliminates {op : Operation} (eliminates : op.eliminates = true) (k : Nat) :
    op.numVarsAfter k = k := by
  cases op <;> first | rfl | cases eliminates

/-- An operation that may eliminate variables either is rejected for its literals or gets to work. -/
theorem engages_of_eliminates {op : Operation} (eliminates : op.eliminates = true) {answer : Answer}
    (accepted : op.checked? = none ∨ ∃ b, answer = .flag b) : op.engages answer = true := by
  cases op with
  | eliminate => rfl
  | solve => rfl
  | solveAssuming =>
    obtain ⟨b, rfl⟩ := accepted.resolve_left nofun
    rfl
  | solveByStrategy =>
    obtain ⟨b, rfl⟩ := accepted.resolve_left nofun
    rfl
  | _ => cases eliminates

end Operation

namespace Session

variable {config : Config} {h : History} {s s' : Session} {op : Operation} {answer : Answer}
  {ops : List Operation} {answers : List Answer} {lits : List Int32} {k : Nat}

/-! ## What operations spare -/

/-- An operation that allocates nothing can be carried out. -/
theorem exists_of_perform (inv : Invariant h s) (few : s.numVars ≤ maxVars)
    (stays : op.numVarsAfter s.numVars = s.numVars) : ∃ answer s', s.perform op = .ok (answer, s') := by
  rcases perform_spec inv op with ⟨-, beyond⟩ | ⟨⟨answer, s'⟩, performed, -⟩
  · exact absurd few (Nat.not_le_of_lt (stays ▸ beyond))
  · exact ⟨answer, s', performed⟩

/-- However an operation that may eliminate variables ends, it has spared the variables it should. -/
theorem spares_of_perform (inv : Invariant h s) (eliminates : op.eliminates = true)
    (performed : s.perform op = .ok (answer, s')) : ∃ e solved ready,
      s' = ⟨s.numVars, e, s.config, solved, ready⟩ ∧
        s.engine.Spares (op.assumptions?.getD []) e := by
  have engaged (accepted : op.checked? = none ∨ ∃ b, answer = .flag b) : ∃ e solved ready,
      s' = ⟨s.numVars, e, s.config, solved, ready⟩ ∧
        s.engine.Spares (op.assumptions?.getD []) e := by
    have engages := Operation.engages_of_eliminates eliminates accepted
    cases effect_of_perform performed with
    | allocated => cases eliminates
    | restarted => cases eliminates
    | marked _ _ _ quiet => cases quiet.symm.trans engages
    | added => cases eliminates
    | simplified => cases eliminates
    | eliminated eliminated =>
      exact ⟨_, _, _, rfl, inv.represents.spares_of_eliminate eliminated⟩
    | solved asked allocated solved =>
      rw [asked]
      exact ⟨_, _, _, rfl, inv.represents.spares_of_solve allocated solved⟩
  cases checks : op.checked? with
  | none => exact engaged (.inl checks)
  | some lits =>
    cases read : s.usableLiterals lits with
    | ok ms => exact engaged (.inr (flag_of_perform checks read performed))
    | error e =>
      rw [perform_of_error checks read] at performed
      cases performed
      refine ⟨s.engine, s.solvedByStrategy,
        (if op.assumptions?.isSome then s.withdraw else s).modelReady, ?_, .of_marks_eq rfl⟩
      split <;> rfl

/-- The other operations neither eliminate variables nor bring eliminated ones back, short of a
reset. -/
theorem retains_of_not_eliminates (performed : s.perform op = .ok (answer, s'))
    (idle : op.eliminates = false) (other : op ≠ .reset) : s.Retains s' := by
  cases effect_of_perform performed with
  | allocated _ grown => exact .of_newVar grown _ _ _
  | restarted => exact absurd rfl other
  | marked _ frame eliminated => exact .of_engine ⟨eliminated, by rw [frame]⟩ _ _ _
  | added _ added =>
    obtain ⟨⟨ok, p⟩, -, frame⟩ := bind_eq_ok_iff.1 added
    cases frame
    exact .of_engine (s := s) (e := { s.engine with toPropagator := p }) ⟨rfl, rfl⟩ _ _ _
  | simplified simplified =>
    obtain ⟨⟨ok, p⟩, -, frame⟩ := bind_eq_ok_iff.1 simplified
    cases frame
    exact .of_engine (s := s) (e := { s.engine with toPropagator := p }) ⟨rfl, rfl⟩ _ _ _
  | eliminated => cases idle
  | solved asked => cases idle.symm.trans (Operation.eliminates_of_asked asked)

/-- What is eliminated stays so until a reset. -/
theorem eliminated_of_perform (inv : Invariant h s) (performed : s.perform op = .ok (answer, s'))
    (other : op ≠ .reset) (gone : s.Eliminated k) : s'.Eliminated k := by
  cases eliminates : op.eliminates with
  | false => exact ((retains_of_not_eliminates performed eliminates other).eliminated k).2 gone
  | true =>
    obtain ⟨e, solved, ready, rfl, spares⟩ := spares_of_perform inv eliminates performed
    obtain ⟨v, rfl, gone⟩ := gone
    exact ⟨v, rfl, spares.more v gone⟩

theorem eliminated_of_run (inv : Invariant h s) (run : s.run ops = .ok (answers, s'))
    (kept : .reset ∉ ops) : s.Eliminated k → s'.Eliminated k :=
  related_of_run (R := fun s s' => s.Eliminated k → s'.Eliminated k) (P := fun _ => True)
    (fun _ gone => gone) (fun first second gone => second (first gone))
    (fun inv _ performed other => ⟨eliminated_of_perform inv performed other, trivial⟩) inv trivial run kept

/-! ## Variables that are kept frozen -/

/-- Whenever one of the operations may eliminate variables, the variable with number `k` is frozen, or
not allocated. -/
def KeepsFrozen (k : Nat) : Session → List Operation → Prop
  | _, [] => True
  | s, op :: ops => (op.eliminates = true → k < s.numVars → s.frozenAt k = true) ∧
      Yields (s.perform op) fun out => KeepsFrozen k out.2 ops

instance decidableKeepsFrozen (k : Nat) : (s : Session) → (ops : List Operation) →
    Decidable (KeepsFrozen k s ops)
  | _, [] => .isTrue trivial
  | s, op :: ops =>
    have : DecidablePred fun out : Answer × Session => KeepsFrozen k out.2 ops := fun out =>
      decidableKeepsFrozen k out.2 ops
    inferInstanceAs (Decidable ((op.eliminates = true → k < s.numVars → s.frozenAt k = true) ∧
      Yields (s.perform op) fun out => KeepsFrozen k out.2 ops))

/-- An operation eliminates no frozen variable. -/
theorem not_eliminated_of_perform (inv : Invariant h s) (kept : ¬ s.Eliminated k)
    (frozen : op.eliminates = true → k < s.numVars → s.frozenAt k = true)
    (performed : s.perform op = .ok (answer, s')) : ¬ s'.Eliminated k := by
  cases eliminates : op.eliminates with
  | true =>
    obtain ⟨e, solved, ready, rfl, spares⟩ := spares_of_perform inv eliminates performed
    rintro ⟨v, rfl, gone⟩
    have before : s.engine.isEliminated v = false :=
      Bool.eq_false_of_not_eq_true fun gone => kept ⟨v, rfl, gone⟩
    have set := frozen eliminates v.isLt
    rw [frozenAt, dif_pos v.isLt, (spares.expendable v before gone).1.thawed] at set
    cases set
  | false =>
    by_cases other : op = .reset
    · subst other
      cases performed
      rintro ⟨v, -⟩
      exact v.elim0
    · exact fun gone =>
        kept (((retains_of_not_eliminates performed eliminates other).eliminated k).1 gone)

/-- A variable that is kept frozen is never eliminated. -/
theorem not_eliminated_of_run (inv : Invariant h s) (kept : ¬ s.Eliminated k)
    (frozen : KeepsFrozen k s ops) (run : s.run ops = .ok (answers, s')) : ¬ s'.Eliminated k := by
  induction ops generalizing h s answers with
  | nil =>
    cases run
    exact kept
  | cons op ops ih =>
    obtain ⟨answer, s₁, rest, performed, later, -⟩ := exists_of_run_cons run
    obtain ⟨here, next⟩ := frozen
    exact ih (performed_of_perform inv performed).invariant
      (not_eliminated_of_perform inv kept here performed) (next.of_eq performed) later

/-- Literals of variables that are not eliminated are accepted. -/
theorem exists_usableLiterals (usable : ∀ l ∈ lits, ∃ m, s.literal l = .ok m ∧
    s.engine.isEliminated m.var = false) : ∃ ms, s.usableLiterals lits = .ok ms := by
  induction lits with
  | nil => exact ⟨[], rfl⟩
  | cons l ls ih =>
    obtain ⟨⟨m, read, stays⟩, rest⟩ := List.forall_mem_cons.1 usable
    obtain ⟨ms, others⟩ := ih rest
    refine ⟨m :: ms, ?_⟩
    simp [usableLiterals, usableLiteral, read, stays, others, bind, Except.bind, pure, Except.pure]

/-- An operation that may eliminate variables succeeds and spares the frozen variables. No variable
comes back but by a reset. And where a variable was kept frozen since it was allocated, clauses and
assumptions on it are not rejected, if the other variables in them are not eliminated. -/
theorem freezing_is_respected (run : (fresh config).run ops = .ok (answers, s)) :
    (∀ op : Operation, op.eliminates = true → ∃ answer e solved ready,
      s.perform op = .ok (answer, ⟨s.numVars, e, s.config, solved, ready⟩) ∧
        s.engine.Spares (op.assumptions?.getD []) e) ∧
    ∀ later answers' s', s.run later = .ok (answers', s') →
      (.reset ∉ later → ∀ k, s.Eliminated k → s'.Eliminated k) ∧
      ∀ (op : Operation) (lits : List Int32), op.checked? = some lits →
        (∀ l ∈ lits, ∃ m, s'.literal l = .ok m ∧ (s'.engine.isEliminated m.var = false ∨
          (s.numVars ≤ m.var ∧ KeepsFrozen m.var s later))) →
        ∃ b s'', s'.perform op = .ok (.flag b, s'') := by
  have inv := invariant_of_run run
  have few := numVars_le_of_run_from run (Nat.zero_le _)
  refine ⟨fun op eliminates => ?_, fun later answers' s' ran => ⟨fun kept k =>
    eliminated_of_run inv ran kept, fun op lits checks usable => ?_⟩⟩
  · obtain ⟨answer, s', performed⟩ :=
      exists_of_perform inv few (Operation.numVarsAfter_of_eliminates eliminates _)
    obtain ⟨e, solved, ready, rfl, spares⟩ := spares_of_perform inv eliminates performed
    exact ⟨answer, e, solved, ready, performed, spares⟩
  · have accepted : ∀ l ∈ lits, ∃ m, s'.literal l = .ok m ∧
        s'.engine.isEliminated m.var = false := by
      intro l hl
      obtain ⟨m, read, stays | ⟨later', frozen⟩⟩ := usable l hl
      · exact ⟨m, read, stays⟩
      · have unallocated : ¬ s.Eliminated m.var := by
          rintro ⟨v, same, -⟩
          exact Nat.not_le_of_lt v.isLt (same ▸ later')
        have kept := not_eliminated_of_run inv unallocated frozen ran
        exact ⟨m, read, Bool.eq_false_of_not_eq_true fun gone => kept ⟨m.var, rfl, gone⟩⟩
    obtain ⟨ms, read⟩ := exists_usableLiterals accepted
    have stays : op.numVarsAfter s'.numVars = s'.numVars := by
      cases op <;> first | rfl | cases checks
    obtain ⟨answer, s'', performed⟩ :=
      exists_of_perform (inv.of_run ran) (numVars_le_of_run_from ran few) stays
    obtain ⟨b, rfl⟩ := flag_of_perform checks read performed
    exact ⟨b, s'', performed⟩

/-- Three clauses, of whose variables the caller freezes the third. -/
def pinnedOperations : List Operation :=
  [.newVar .unset true, .newVar .unset true, .newVar .unset true, .setFrozen 3 true,
    .addClause [1, 2], .addClause [-1, 3], .addClause [2, 3]]

/-- A solve under opposite assumptions on the second variable, one of them made twice, eliminates the
first variable only. The third one stays frozen and the second one does not. -/
theorem freezing_is_respected_pinnedOperations : (∃ answers s e solved ready,
    (fresh {}).run pinnedOperations = .ok (answers, s) ∧
      s.perform (.solveAssuming [-2, 2, -2] true false) =
        .ok (.flag false, ⟨s.numVars, e, s.config, solved, ready⟩) ∧
      e.marks.eliminated.toList = [true, false, false] ∧
      s.engine.marks.frozen.toList = [false, false, true] ∧
      ∀ v, e.isFrozen v = s.engine.isFrozen v) ∧
    ∃ answers s b s', (fresh {}).run (pinnedOperations ++ [.solveAssuming [-2, 2, -2] true false]) =
      .ok (answers, s) ∧ s.perform (.addClause [-3]) = .ok (.flag b, s') := by
  constructor
  · have ran : Yields ((fresh {}).run pinnedOperations) fun out =>
        out.2.engine.marks.frozen.toList = [false, false, true] ∧
          Yields (out.2.perform (.solveAssuming [-2, 2, -2] true false)) fun out' =>
            out'.1 = .flag false ∧ out'.2.engine.marks.eliminated.toList = [true, false, false] := by
      decide +kernel
    obtain ⟨⟨answers, s⟩, run, frozen, ⟨_, s'⟩, solved, rfl, eliminated⟩ := ran
    obtain ⟨answer, e, counted, ready, performed, spares⟩ :=
      (freezing_is_respected run).1 (.solveAssuming [-2, 2, -2] true false) rfl
    cases solved.symm.trans performed
    exact ⟨answers, s, e, counted, ready, run, performed, eliminated, frozen, spares.frozen⟩
  · have ran : Yields ((fresh {}).run
        (pinnedOperations ++ [.solveAssuming [-2, 2, -2] true false])) fun out =>
          ∃ v : Fin out.2.numVars, out.2.literal (-3) = .ok ⟨v, false⟩ ∧ v.val = 2 := by
      decide +kernel
    have frozen : KeepsFrozen 2 (fresh {})
        (pinnedOperations ++ [.solveAssuming [-2, 2, -2] true false]) := by
      decide +kernel
    obtain ⟨⟨answers, s⟩, run, v, read, third⟩ := ran
    have start : (fresh {}).run [] = .ok ([], fresh {}) := rfl
    obtain ⟨b, s', added⟩ := ((freezing_is_respected start).2 _ _ _ run).2 (.addClause [-3]) [-3] rfl
      (by simpa [read] using Or.inr ⟨Nat.zero_le _, third ▸ frozen⟩)
    exact ⟨answers, s, b, s', run, added⟩

end Session

end IncrementalSat
