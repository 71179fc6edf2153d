import IncrementalSat.Proofs.Service.Calls
import IncrementalSat.Proofs.Session.PartialModels
import IncrementalSat.Proofs.Session.Renewal

/-!
# Reading a model

A model can be read from a solve that found one until the next operation that renews the session.
Nothing in between changes a value. All readers agree: they read one value for each variable, and a
literal and its opposite have opposite values.
-/
namespace IncrementalSat

namespace Engine

variable {n : Nat} {e e' : Engine n} {as : List (Literal Nat)}

/-- A search that finds a model stores a value for each variable. -/
theorem size_model_of_searchModel (found : e.searchModel as = .ok (true, e')) : e'.model.size = n := by
  unfold searchModel at found
  obtain ⟨e₁, -, rest⟩ := bind_eq_ok_iff.1 found
  obtain ⟨⟨verdict, e₂⟩, -, rest⟩ := bind_eq_ok_iff.1 rest
  cases verdict with
  | sat =>
    obtain ⟨e₃, retreated, result⟩ := bind_eq_ok_iff.1 rest
    obtain ⟨p, -, frame⟩ := bind_eq_ok_iff.1 retreated
    cases result
    cases frame
    exact Vector.size_toArray _
  | unsat =>
    obtain ⟨e₃, -, result⟩ := bind_eq_ok_iff.1 rest
    cases result
  | failed =>
    obtain ⟨e₃, -, result⟩ := bind_eq_ok_iff.1 rest
    cases result

theorem size_model_of_solve {simplify turnOff : Bool}
    (found : e.solve as simplify turnOff = .ok (true, e')) : e'.model.size = n := by
  unfold solve at found
  dsimp only at found
  split at found
  · cases found
  · obtain ⟨⟨ready, e₁⟩, -, searched⟩ := bind_eq_ok_iff.1 found
    cases ready with
    | true => exact size_model_of_searchModel searched
    | false => cases searched

end Engine

namespace Session

variable {config : Config} {h : History} {s s' : Session} {op : Operation} {answer : Answer}
  {ops : List Operation} {answers : List Answer} {l : Int32}

/-! ## When a model can be read -/

/-- A solve found a model, and no operation has renewed the session since. The log is in the order of
the operations. -/
def Current (log : List (Operation × Answer)) : Prop :=
  ∃ earlier op later, log = earlier ++ (op, .flag true) :: later ∧
    op.assumptions?.isSome = true ∧ ∀ x ∈ later, x.1.renews x.2 = false

theorem current_cons_iff {x : Operation × Answer} {log : List (Operation × Answer)} :
    Current (x :: log) ↔ Current log ∨
      (x.1.assumptions?.isSome = true ∧ x.2 = .flag true ∧ ∀ y ∈ log, y.1.renews y.2 = false) := by
  constructor
  · rintro ⟨earlier, op, later, split, solves, quiet⟩
    cases earlier with
    | nil =>
      cases split
      exact .inr ⟨solves, rfl, quiet⟩
    | cons y earlier =>
      cases split
      exact .inl ⟨earlier, op, later, rfl, solves, quiet⟩
  · rintro (⟨earlier, op, later, rfl, solves, quiet⟩ | ⟨solves, found, quiet⟩)
    · exact ⟨x :: earlier, op, later, rfl, solves, quiet⟩
    · obtain ⟨op, answer⟩ := x
      cases found
      exact ⟨[], op, log, rfl, solves, quiet⟩

/-- Whether a model can be read after a run is decided by the last operation that renewed the
session, or before the run if there was none. -/
theorem modelReady_of_run (run : s.run ops = .ok (answers, s')) : s'.modelReady = true ↔
    Current (ops.zip answers) ∨
      (s.modelReady = true ∧ ∀ x ∈ ops.zip answers, x.1.renews x.2 = false) := by
  induction ops generalizing s answers with
  | nil =>
    cases run
    simp [Current]
  | cons op ops ih =>
    obtain ⟨answer, s₁, rest, performed, later, rfl⟩ := exists_of_run_cons run
    have step := modelReady_of_perform performed
    rw [List.zip_cons_cons, current_cons_iff, List.forall_mem_cons, ih later, step, or_assoc]
    refine or_congr_right ?_
    cases renews : op.renews answer with
    | true => simp [and_assoc]
    | false =>
      have idle : op.assumptions?.isSome = false := by
        rw [← Bool.not_eq_true, Option.isSome_iff_exists]
        rintro ⟨as, asked⟩
        cases renews.symm.trans (Operation.renews_of_asked asked)
      simp [idle]

theorem model_eq_ok_iff : (∃ bits, s.model = .ok bits) ↔ s.modelReady = true := by
  unfold model
  cases s.modelReady with
  | true => exact iff_of_true ⟨_, rfl⟩ rfl
  | false => exact iff_of_false (by rintro ⟨_, read⟩; cases read) Bool.false_ne_true

/-! ## Operations that leave the model alone -/

/-- Every way to read the model has the same result. -/
structure ReadsAlike (s s' : Session) : Prop where
  model : s'.model = s.model
  modelValue : ∀ l, s'.modelValue l = s.modelValue l
  value : ∀ l, s'.value l = s.value l

theorem ReadsAlike.of_engine {e : Engine s.numVars} (model : e.model = s.engine.model)
    (config : Config) (solved : Bool) :
    s.ReadsAlike ⟨s.numVars, e, config, solved, s.modelReady⟩ := by
  have values : ∀ l, e.modelValue l = s.engine.modelValue l := by
    intro l
    unfold Engine.modelValue
    rw [model]
  have read : ∀ l, Session.modelValue ⟨s.numVars, e, config, solved, s.modelReady⟩ l =
      s.modelValue l := by
    intro l
    unfold Session.modelValue
    rw [literal_of_engine]
    simp only [values]
  refine ⟨?_, read, fun l => ?_⟩
  · unfold Session.model
    simp only [values]
  · unfold Session.value
    rw [read]

/-- Only operations that renew a session change what is read. -/
theorem readsAlike_of_perform (inv : Invariant h s) (performed : s.perform op = .ok (answer, s'))
    (keeps : op.renews answer = false) : s.ReadsAlike s' := by
  cases effect_of_perform performed with
  | allocated => cases keeps
  | restarted => cases keeps
  | marked stays frame _ quiet =>
    rw [Operation.renews_of_quiet stays quiet, Option.isSome_eq_false_iff] at keeps
    rw [keeps]
    exact .of_engine (by rw [frame]) _ _
  | added => cases keeps
  | simplified simplified =>
    obtain ⟨-, -, frame⟩ := inv.represents.simplify.of_eq simplified
    exact .of_engine (by rw [frame]) _ _
  | @eliminated turnOff _ _ eliminated =>
    obtain ⟨-, -, sheds⟩ := (inv.represents.eliminate turnOff).of_eq eliminated
    exact .of_engine sheds.model _ _
  | solved asked => cases keeps.symm.trans (Operation.renews_of_asked asked)

/-! ## What is read -/

/-- A model that can be read has a value for each variable. -/
def Sized (s : Session) : Prop := s.modelReady = true → s.engine.model.size = s.numVars

theorem sized_of_perform (inv : Invariant h s) (sized : s.Sized)
    (performed : s.perform op = .ok (answer, s')) : s'.Sized := by
  cases effect_of_perform performed with
  | allocated => exact nofun
  | restarted => exact nofun
  | marked _ frame =>
    intro ready
    rw [frame]
    exact sized (Bool.and_eq_true_iff.1 ready).2
  | added => exact nofun
  | simplified simplified =>
    obtain ⟨-, -, frame⟩ := inv.represents.simplify.of_eq simplified
    intro ready
    rw [frame]
    exact sized ready
  | @eliminated turnOff _ _ eliminated =>
    obtain ⟨-, -, sheds⟩ := (inv.represents.eliminate turnOff).of_eq eliminated
    intro ready
    exact (congrArg Array.size sheds.model).trans (sized ready)
  | solved _ _ solved =>
    intro found
    cases found
    exact Engine.size_model_of_solve solved

theorem sized_of_run (inv : Invariant h s) (sized : s.Sized)
    (run : s.run ops = .ok (answers, s')) : s'.Sized :=
  preserved_of_run (P := fun _ => Sized) sized_of_perform inv sized run

theorem value_eq_ok_iff {t : Truth} (read : s.modelValue l = .ok t) (b : Bool) :
    s.value l = .ok b ↔ t = .ofBool b := by
  unfold value
  rw [read]
  cases t <;> cases b <;> simp [Truth.ofBool, bind, Except.bind]

/-- The bits are the values of the positive literals, in order. -/
theorem getElem?_model {bits : List Bool} (model : s.model = .ok bits) (v : Fin s.numVars) :
    bits[v.val + 1]? = some (s.engine.modelValue ⟨v, true⟩).isHolds := by
  unfold Session.model at model
  split at model
  · cases model
    rw [List.getElem?_cons_succ, List.getElem?_map,
      List.getElem?_eq_getElem (by rw [List.length_finRange]; exact v.isLt), List.getElem_finRange]
    rfl
  · cases model

theorem length_model {bits : List Bool} (model : s.model = .ok bits) :
    bits.length = s.numVars + 1 ∧ bits[0]? = some false := by
  unfold Session.model at model
  split at model
  · cases model
    exact ⟨by simp, rfl⟩
  · cases model

/-- The values of a literal, of its opposite and of its variable fit together. -/
theorem readers_agree {bits : List Bool} (model : s.model = .ok bits) (nonzero : l ≠ 0)
    (negatable : l ≠ Int32.minValue) (allocated : l.toInt.natAbs ≤ s.numVars) :
    ∃ t, s.modelValue l = .ok t ∧ s.modelValue (-l) = .ok t.neg ∧
      (∀ b, s.value l = .ok b ↔ t = .ofBool b) ∧
      (bits[l.toInt.natAbs]? = some true ↔ s.modelValue l.abs = .ok .holds) := by
  have ready := model_eq_ok_iff.1 ⟨bits, model⟩
  obtain ⟨m, read, named⟩ := exists_literal nonzero negatable allocated
  have value : s.modelValue l = .ok (s.engine.modelValue m) :=
    modelValue_eq_ok_iff.2 ⟨ready, m, read, rfl⟩
  have opposite : s.modelValue (-l) = .ok (s.engine.modelValue m).neg :=
    modelValue_eq_ok_iff.2 ⟨ready, m.neg, Literal.ofSigned_neg read,
      Literal.truthIn_neg s.engine.model m.toLiteral⟩
  have magnitude : s.modelValue l.abs = .ok (s.engine.modelValue ⟨m.var, true⟩) :=
    modelValue_eq_ok_iff.2 ⟨ready, ⟨m.var, true⟩, Literal.ofSigned_abs read, rfl⟩
  refine ⟨s.engine.modelValue m, value, opposite, value_eq_ok_iff value, ?_⟩
  rw [← named, getElem?_model model, magnitude]
  cases s.engine.modelValue ⟨m.var, true⟩ <;> simp [Truth.isHolds]

theorem copyModel_bytes (contents : List UInt8) (bits : List Bool) :
    Service.copyModel (.bytes contents) (.bits bits) = ⟨bits.length, some (.bytes
      (if contents.length < bits.length then contents
        else bits.map (fun b => if b then 1 else 0) ++ contents.drop bits.length)), none⟩ := by
  unfold Service.copyModel
  dsimp only
  by_cases small : contents.length < bits.length
  · have kept : Buffer.write (.bytes contents) bits = .ok (.bytes contents) := if_pos small
    rw [kept, if_pos small]
  · have written : Buffer.write (.bytes contents) bits =
        .ok (.bytes (bits.map (fun b => if b then 1 else 0) ++ contents.drop bits.length)) :=
      if_neg small
    rw [written, if_neg small]

/-- A model that can be read is copied to the front of memory that has room for it. Memory that is too
small is left as it is; the reply tells the number of entries in both cases. -/
theorem call_model {bits : List Bool} (model : s.model = .ok bits) {m : Service} {handle : Handle}
    (found : m.get? handle = some s) (contents : List UInt8) :
    m.call handle (.model (.bytes contents)) = .ok (⟨bits.length, some (.bytes
      (if contents.length < bits.length then contents
        else bits.map (fun b => if b then 1 else 0) ++ contents.drop bits.length)), none⟩, m) := by
  rw [Service.call_of_live found (by nofun)]
  change Except.ok (Service.copyModel (.bytes contents) (.ofExcept .bits s.model), m.set handle s) = _
  rw [model, SlotMap.set_self found, Answer.ofExcept, copyModel_bytes]

/-- The model of a session can be read exactly if a solve found one and no operation has renewed the
session since. No other operation changes what is read. The readers of a model that can be read agree
with each other, and so does what is copied into memory. -/
theorem reading_of_run (run : (fresh config).run ops = .ok (answers, s)) :
    ((∃ bits, s.model = .ok bits) ↔ Current (ops.zip answers)) ∧
    (∀ op answer s', s.perform op = .ok (answer, s') → op.renews answer = false → s.ReadsAlike s') ∧
    ∀ bits, s.model = .ok bits →
      s.engine.model.size = s.numVars ∧ bits.length = s.numVars + 1 ∧ bits[0]? = some false ∧
      (∀ l, l ≠ 0 → l ≠ Int32.minValue → l.toInt.natAbs ≤ s.numVars →
        ∃ t, s.modelValue l = .ok t ∧ s.modelValue (-l) = .ok t.neg ∧
          (∀ b, s.value l = .ok b ↔ t = .ofBool b) ∧
          (bits[l.toInt.natAbs]? = some true ↔ s.modelValue l.abs = .ok .holds)) ∧
      ∀ (m : Service) (handle : Handle) (contents : List UInt8), m.get? handle = some s →
        m.call handle (.model (.bytes contents)) = .ok (⟨bits.length, some (.bytes
          (if contents.length < bits.length then contents
            else bits.map (fun b => if b then 1 else 0) ++ contents.drop bits.length)), none⟩, m) := by
  have inv := invariant_of_run run
  refine ⟨?_, fun op answer s' performed keeps => readsAlike_of_perform inv performed keeps,
    fun bits model => ?_⟩
  · rw [model_eq_ok_iff, modelReady_of_run run]
    exact or_iff_left fun before => Bool.false_ne_true before.1
  · have ready := model_eq_ok_iff.1 ⟨bits, model⟩
    obtain ⟨length, first⟩ := length_model model
    refine ⟨sized_of_run (Invariant.fresh config) nofun run ready, length, first, ?_, ?_⟩
    · exact fun l nonzero negatable allocated => readers_agree model nonzero negatable allocated
    · exact fun m handle contents found => call_model model found contents

/-- The model of a solve is still read after a clause was rejected and variables were eliminated. -/
def lastingOperations : List Operation :=
  sampleOperations ++ [.addClause [3, 0], .setFrozen 3 false, .eliminate true, .numVars]

theorem reading_of_run_lastingOperations : ∃ answers s,
    (fresh {}).run lastingOperations = .ok (answers, s) ∧
      Current (lastingOperations.zip answers) ∧ s.modelValue (-3) = .ok .fails ∧
      s.modelValue 3 = .ok .holds ∧ s.value (-3) = .ok false ∧
      ∀ (m : Service) (handle : Handle), m.get? handle = some s →
        m.call handle (.model (.bytes [7, 7, 7, 7, 7])) =
          .ok (⟨4, some (.bytes [0, 1, 0, 1, 7]), none⟩, m) := by
  have ran : Yields ((fresh {}).run lastingOperations) fun out =>
      out.2.numVars = 3 ∧ out.2.model = .ok [false, true, false, true] ∧
        out.2.modelValue (-3) = .ok .fails := by
    decide +kernel
  obtain ⟨⟨answers, s⟩, run, three, model, fails⟩ := ran
  obtain ⟨current, -, read⟩ := reading_of_run run
  obtain ⟨-, -, -, agree, copied⟩ := read _ model
  obtain ⟨t, value, opposite, defined, -⟩ := agree (-3) (by decide) (by decide) (by rw [three]; decide)
  cases fails.symm.trans value
  refine ⟨answers, s, run, current.1 ⟨_, model⟩, fails, opposite, (defined false).2 rfl, ?_⟩
  exact fun m handle found => copied m handle [7, 7, 7, 7, 7] found

end Session

end IncrementalSat
