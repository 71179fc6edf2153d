import IncrementalSat.Proofs.Session.Export

/-!
# What a partial model can make false

A solve that answers yes may leave variables unset on which the search must not branch. The model
then need not make every accepted clause true, and it can even make one false. This takes the
negative literal of an eliminated variable in the clause, and a variable that is unset.
-/
namespace IncrementalSat

namespace Session

variable {config : Config} {s s' : Session} {op : Operation} {ops : List Operation}
  {answers : List Answer} {as : List (Literal Nat)} {lits : List Int32} {l : Int32}

/-! ## Reading values -/

theorem literal_eq_ok_iff {m : Lit s.numVars} :
    s.literal l = .ok m ↔ Literal.ofSigned l = .ok m.toLiteral := by
  constructor
  · exact literal_spec
  · intro read
    simp [literal, read, Lit.ofLiteral?_toLiteral, bind, Except.bind]

/-- A signed number that names an allocated variable stands for a literal. -/
theorem exists_literal (nonzero : l ≠ 0) (negatable : l ≠ Int32.minValue)
    (allocated : l.toInt.natAbs ≤ s.numVars) : ∃ m : Lit s.numVars,
      Literal.ofSigned l = .ok m.toLiteral ∧ m.var.val + 1 = l.toInt.natAbs := by
  have valid : ¬ (l = 0 ∨ l = Int32.minValue) := not_or.2 ⟨nonzero, negatable⟩
  have positive : l.toInt ≠ 0 := fun zero => nonzero (Int32.toInt_inj.1 zero)
  refine ⟨⟨⟨l.toInt.natAbs - 1, by omega⟩, decide (0 < l)⟩, if_neg valid, ?_⟩
  change l.toInt.natAbs - 1 + 1 = _
  omega

theorem modelValue_eq_ok_iff {t : Truth} : s.modelValue l = .ok t ↔ s.modelReady = true ∧
    ∃ m : Lit s.numVars, Literal.ofSigned l = .ok m.toLiteral ∧ s.engine.modelValue m = t := by
  unfold modelValue
  cases s.modelReady with
  | false => simp
  | true =>
    rw [if_pos rfl, bind_eq_ok_iff]
    simp [literal_eq_ok_iff, pure, Except.pure]

theorem isEliminated_eq_ok_iff {b : Bool} : s.isEliminated l = .ok b ↔
    ∃ m : Lit s.numVars, Literal.ofSigned l = .ok m.toLiteral ∧ s.engine.isEliminated m.var = b := by
  unfold isEliminated
  rw [bind_eq_ok_iff]
  simp [literal_eq_ok_iff, pure, Except.pure]

/-- If the values of all literals of a clause are false, the stored model makes the clause false. -/
theorem falsifies_of_modelValue (fails : ∀ l ∈ lits, s.modelValue l = .ok .fails) :
    s.engine.Falsifies (Literal.ofAllSigned lits) := by
  intro k hk
  obtain ⟨l, hl, read⟩ := Literal.mem_ofAllSigned_iff.1 hk
  obtain ⟨-, m, same, value⟩ := modelValue_eq_ok_iff.1 (fails l hl)
  rw [read] at same
  cases same
  exact value

/-! ## Solving -/

/-- An accepted clause is false in the model of a solve that answers yes only if it has the negative
literal of an eliminated variable and some variable is unset in the model. -/
theorem partial_model_of_run (run : (fresh config).run ops = .ok (answers, s))
    (asked : op.assumptions? = some as) (performed : s.perform op = .ok (.flag true, s')) {b : Bool}
    (accepted : (.addClause lits, .flag b) ∈ History.after [] ops answers)
    (fails : ∀ l ∈ lits, s'.modelValue l = .ok .fails) :
    (∃ l ∈ lits, l < 0 ∧ s'.isEliminated l = .ok true) ∧ ∃ l, s'.modelValue l = .ok .unset := by
  have few := numVars_le_of_perform performed (numVars_le_of_run_from run (Nat.zero_le _))
  have mem : Literal.ofAllSigned lits ∈ (History.after [] ops answers).accepted :=
    List.mem_filterMap.2 ⟨_, accepted, rfl⟩
  obtain ⟨⟨v, negative, gone⟩, w, unset⟩ :=
    (performed_of_perform (invariant_of_run run) performed).excused as asked rfl _ mem
      (falsifies_of_modelValue fails)
  obtain ⟨l, hl, read⟩ := Literal.mem_ofAllSigned_iff.1 negative
  constructor
  · exact ⟨l, hl, Literal.neg_of_ofSigned read, isEliminated_eq_ok_iff.2 ⟨⟨v, false⟩, read, gone⟩⟩
  · have ready := (modelValue_eq_ok_iff.1 (fails l hl)).1
    refine ⟨Lit.toSigned ⟨w, true⟩, modelValue_eq_ok_iff.2 ⟨ready, ⟨w, true⟩, ?_, unset⟩⟩
    exact ofSigned_toSigned few _

/-- A session with four variables, of which the search must not branch on the second and third, and
of which only the first may be eliminated. -/
def undecidedOperations : List Operation :=
  [.newVar .unset true, .newVar .unset false, .newVar .unset false, .newVar .fails true,
    .setFrozen 2 true, .setFrozen 3 true, .setFrozen 4 true,
    .addClause [1, 2, 3], .addClause [-1, 4]]

/-- The solve makes the first variable true for the clause `[1, 2, 3]` and keeps the last one false. -/
theorem solve_undecidedOperations : Yields ((fresh {}).run undecidedOperations) fun out =>
    (.addClause [-1, 4], .flag true) ∈ History.after [] undecidedOperations out.1 ∧
      Yields (out.2.perform (.solve true false)) fun out' => out'.1 = .flag true ∧
        out'.2.modelValue (-1) = .ok .fails ∧ out'.2.modelValue 4 = .ok .fails := by
  decide +kernel

theorem partial_model_of_run_undecidedOperations : ∃ answers s s',
    (fresh {}).run undecidedOperations = .ok (answers, s) ∧
      s.perform (.solve true false) = .ok (.flag true, s') ∧
      (∀ l ∈ [-1, 4], s'.modelValue l = .ok .fails) ∧
      (∃ l ∈ [-1, 4], l < 0 ∧ s'.isEliminated l = .ok true) ∧
      ∃ l, s'.modelValue l = .ok .unset := by
  obtain ⟨⟨answers, s⟩, run, accepted, ⟨answer, s'⟩, performed, rfl, values⟩ :=
    solve_undecidedOperations
  have fails : ∀ l ∈ [-1, 4], s'.modelValue l = .ok .fails := by simpa using values
  exact ⟨answers, s, s', run, performed, fails, partial_model_of_run run rfl performed accepted fails⟩

/-- So the clause `[-1, 4]`, which was accepted, is false in the model. -/
theorem partial_model_falsifies : ∃ answers s s',
    (fresh {}).run undecidedOperations = .ok (answers, s) ∧
      (.addClause [-1, 4], .flag true) ∈ History.after [] undecidedOperations answers ∧
      s.perform (.solve true false) = .ok (.flag true, s') ∧
      ∀ l ∈ [-1, 4], s'.modelValue l = .ok .fails := by
  obtain ⟨⟨answers, s⟩, run, accepted, ⟨answer, s'⟩, performed, rfl, values⟩ :=
    solve_undecidedOperations
  exact ⟨answers, s, s', run, accepted, performed, by simpa using values⟩

end Session

end IncrementalSat
