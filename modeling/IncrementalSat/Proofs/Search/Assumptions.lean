import IncrementalSat.Proofs.Propagator.Addition
import IncrementalSat.Proofs.Search.Learning

/-!
# Searching under assumptions

During a search the first levels are those of the assumptions, in order. Whatever is true on these
levels follows from what was said at the start and from the assumptions.
-/
namespace IncrementalSat

namespace Propagator

variable {n : Nat} {p p' : Propagator n} {base : Valuation → Prop} {as : List (Literal Nat)}

/-- The trail respects the assumptions. -/
structure Under (base : Valuation → Prop) (as : List (Literal Nat)) (p : Propagator n) : Prop where
  assumed : ∀ k < p.trail.level, ∀ a, as[k]? = some a →
    ∃ m : Lit n, m.toLiteral = a ∧ p.trail.eval m = some true ∧ p.trail.depth m ≤ k + 1
  followed : ∀ σ, base σ → (∀ a ∈ as, a.Holds σ) →
    ∀ l, p.trail.eval l = some true → p.trail.depth l ≤ as.length → l.Holds σ

/-! ## Steps of a search -/

/-- At the root level nothing was assumed yet. -/
theorem Under.of_root (h : p.trail.WellFormed) (root : p.trail.level = 0)
    (sound : ∀ σ, base σ → p.Valid σ) : Under base as p where
  assumed := by
    intro k hk
    omega
  followed := fun σ hσ _ l holds _ =>
    (sound σ hσ).facts l ((fixes_iff_of_root h root l).2 holds)

theorem Under.backtrack (h : Under base as p) (wf : p.trail.WellFormed) (level : Nat) :
    Under base as (p.backtrack level) where
  assumed := by
    intro k hk a ha
    change k < (p.trail.backtrack level).level at hk
    rw [wf.level_backtrack] at hk
    obtain ⟨m, same, holds, low⟩ := h.assumed k (by omega) a ha
    refine ⟨m, same, ?_, ?_⟩
    · change (p.trail.backtrack level).eval m = _
      rw [wf.eval_backtrack, if_pos (by omega), holds]
    · change (p.trail.backtrack level).depth m ≤ _
      rw [wf.depth_backtrack, if_pos (by omega)]
      exact low
  followed := by
    intro σ hσ hA l holds low
    change (p.trail.backtrack level).eval l = _ at holds
    change (p.trail.backtrack level).depth l ≤ _ at low
    rw [wf.eval_backtrack] at holds
    rw [wf.depth_backtrack] at low
    split at holds
    · next stays =>
      rw [if_pos stays] at low
      exact h.followed σ hσ hA l holds low
    · cases holds

theorem Under.extends (h : Under base as p) (wf : p.trail.WellFormed) (wf' : p'.trail.WellFormed)
    (sound : ∀ σ, base σ → p.Valid σ) (step : p.Extends p') : Under base as p' where
  assumed := by
    intro k hk a ha
    rw [step.level] at hk
    obtain ⟨m, same, holds, low⟩ := h.assumed k hk a ha
    obtain ⟨i, hi⟩ := (wf.eval_eq_true_iff m).1 holds
    have hi' := step.position hi
    refine ⟨m, same, wf'.eval_of_position hi', ?_⟩
    rw [wf'.depth_of_position hi', Trail.levelAt, step.starts]
    rw [wf.depth_of_position hi] at low
    exact low
  followed := by
    intro σ hσ hA l holds low
    obtain ⟨i, hi⟩ := (wf'.eval_eq_true_iff l).1 holds
    rw [wf'.depth_of_position hi, Trail.levelAt, step.starts] at low
    by_cases old : i < p.trail.size
    · obtain ⟨m, hm⟩ : ∃ m, p.trail.lits[i]? = some m := ⟨_, Array.getElem?_eq_getElem old⟩
      rw [step.position hm, Option.some.injEq] at hi
      subst hi
      refine h.followed σ hσ hA m (wf.eval_of_position hm) ?_
      rw [wf.depth_of_position hm]
      exact low
    · have last : p.trail.levelAt i = p.trail.level := wf.levelAt_of_size_le (Nat.not_lt.1 old)
      have shallow : p.trail.level ≤ as.length := last.symm.trans_le low
      refine (step.forced l ?_).holds (sound σ hσ).clauses ?_
      · exact List.mem_of_getElem? (by rwa [Array.getElem?_toList])
      · intro m hm
        obtain ⟨j, hj⟩ := List.getElem?_of_mem hm
        rw [Array.getElem?_toList] at hj
        refine h.followed σ hσ hA m (wf.eval_of_position hj) ?_
        exact Nat.le_trans (wf.depth_le_level m) shallow

/-- The literal asserted after a jump follows as well, since the others are false. -/
theorem Under.asserted {b : Backjump n} (h : Under base as p) (wf : p.WellFormed)
    (sound : ∀ σ, base σ → p.Valid σ) (learned : Analysis.Learned p b) (step : p.Asserted b p') :
    Under base as p' := by
  have back := h.backtrack wf.trail b.level
  have wf' := step.wellFormed.trail
  have wf₀ := wf.trail.backtrack b.level
  have level : p'.trail.level = b.level := by
    rw [Trail.level, step.starts]
    exact level_jump wf learned
  have old : ∀ (i : Nat) (m : Lit n), (p.trail.backtrack b.level).lits[i]? = some m →
      p'.trail.lits[i]? = some m := by
    intro i m hi
    rw [step.lits, Array.getElem?_push, if_neg (Nat.ne_of_lt (Array.getElem?_eq_some_iff.1 hi).1)]
    exact hi
  have depth : ∀ (i : Nat) (m : Lit n), (p.trail.backtrack b.level).lits[i]? = some m →
      p'.trail.depth m = (p.trail.backtrack b.level).depth m := by
    intro i m hi
    rw [wf'.depth_of_position (old i m hi), wf₀.depth_of_position hi, Trail.levelAt, step.starts,
      Trail.levelAt]
  constructor
  · intro k hk a ha
    rw [level] at hk
    obtain ⟨m, same, holds, low⟩ := back.assumed k (by rwa [level_jump wf learned]) a ha
    obtain ⟨i, hi⟩ := (wf₀.eval_eq_true_iff m).1 holds
    exact ⟨m, same, wf'.eval_of_position (old i m hi), (depth i m hi).trans_le low⟩
  · intro σ hσ hA l holds low
    obtain ⟨i, hi⟩ := (wf'.eval_eq_true_iff l).1 holds
    have hi' := hi
    rw [step.lits, Array.getElem?_push] at hi'
    split at hi'
    · next last =>
      rw [Option.some.injEq] at hi'
      subst hi'
      have full : p'.trail.depth b.asserting = b.level := by
        have reached : (p.trail.backtrack b.level).levelAt i = b.level :=
          (wf₀.levelAt_of_size_le (Nat.le_of_eq last.symm)).trans (level_jump wf learned)
        rw [wf'.depth_of_position hi, Trail.levelAt, step.starts]
        exact reached
      obtain ⟨m, hm, true⟩ := learned.entailed σ (sound σ hσ)
      rcases List.mem_cons.1 hm with rfl | other
      · exact true
      · exfalso
        have false := (Trail.eval_neg_eq_true_iff ..).2 (learned.falsified m hm)
        have shallow : p.trail.depth m.neg ≤ as.length := by
          have := learned.highest m other
          rw [Trail.depth_neg]
          omega
        exact (Lit.holds_neg_iff σ m).1 (h.followed σ hσ hA m.neg false shallow) true
    · refine back.followed σ hσ hA l (wf₀.eval_of_position hi') ?_
      exact (depth i l hi').symm.trans_le low

/-- Only the trail matters. -/
theorem Under.of_trail_eq (h : Under base as p) (trail : p'.trail = p.trail) :
    Under base as p' where
  assumed := by rw [trail]; exact h.assumed
  followed := by rw [trail]; exact h.followed

/-! ## Decisions -/

theorem WellFormed.decide (h : p.WellFormed) (done : p.head = p.trail.size) {l : Lit n}
    (fresh : p.trail.eval l = none) :
    ({ p with trail := p.trail.openWith l } : Propagator n).WellFormed := by
  have opened := h.openLevel done
  refine WellFormed.assign opened fresh (.decided ?_ ?_ ?_)
  · have last := opened.trail.levelAt_of_size_le (Nat.le_refl _)
    rw [Trail.level_openLevel] at last
    exact Nat.lt_of_lt_of_eq (Nat.succ_pos _) last.symm
  · change (p.trail.openLevel.assign l .decision).reasonOf l.var = _
    rw [Trail.reasonOf_assign, if_pos rfl, if_neg (by simp)]
  · change p.trail.size ∈ (p.trail.openLevel.assign l .decision).starts.toList
    simp [Trail.openLevel]

/-- A decision respects the assumptions if it is the next one, or if all of them hold. -/
theorem Under.decide (h : Under base as p) {l : Lit n} (fresh : p.trail.eval l = none)
    (next : as[p.trail.level]? = some l.toLiteral ∨ as.length ≤ p.trail.level) :
    Under base as { p with trail := p.trail.openWith l } := by
  have eval : ∀ m b, p.trail.eval m = some b → (p.trail.openWith l).eval m = some b :=
    fun m b value => Trail.eval_assign_of_eval (t := p.trail.openLevel) fresh value
  have depth : ∀ m b, p.trail.eval m = some b → (p.trail.openWith l).depth m = p.trail.depth m :=
    fun m b value => Trail.depth_assign_of_eval (t := p.trail.openLevel) fresh value
  have level : (p.trail.openWith l).level = p.trail.level + 1 := Trail.level_openLevel _
  have full : (p.trail.openWith l).depth l = p.trail.level + 1 := by
    rw [Trail.openWith, Trail.depth_assign, if_pos rfl, Trail.level_openLevel]
  constructor
  · intro k hk a ha
    change k < (p.trail.openWith l).level at hk
    rw [level] at hk
    by_cases old : k < p.trail.level
    · obtain ⟨m, same, holds, low⟩ := h.assumed k old a ha
      exact ⟨m, same, eval m _ holds, (depth m _ holds).trans_le low⟩
    · have here : k = p.trail.level := by omega
      rw [here] at ha
      rcases next with wanted | settled
      · rw [wanted, Option.some.injEq] at ha
        refine ⟨l, ha, Trail.eval_assign_self .., ?_⟩
        change (p.trail.openWith l).depth l ≤ _
        omega
      · rw [List.getElem?_eq_none settled] at ha
        cases ha
  · intro σ hσ hA m holds low
    change (p.trail.openWith l).eval m = some true at holds
    change (p.trail.openWith l).depth m ≤ as.length at low
    by_cases same : l.var = m.var
    · have eq : m = l := Trail.eq_of_eval (Trail.eval_assign_self ..) holds same
      subst eq
      rw [full] at low
      rcases next with wanted | settled
      · rw [← Lit.holds_toLiteral_iff]
        exact hA _ (List.mem_of_getElem? wanted)
      · omega
    · have value : p.trail.eval m = some true := by
        rwa [Trail.openWith, Trail.eval_assign, if_neg same] at holds
      rw [depth m _ value] at low
      exact h.followed σ hσ hA m value low

theorem Under.openLevel (h : Under base as p) {l : Lit n}
    (here : as[p.trail.level]? = some l.toLiteral) (holds : p.trail.eval l = some true)
    (wf : p.trail.WellFormed) : Under base as { p with trail := p.trail.openLevel } where
  assumed := by
    intro k hk a ha
    change k < p.trail.openLevel.level at hk
    rw [Trail.level_openLevel] at hk
    by_cases old : k < p.trail.level
    · exact h.assumed k old a ha
    · have last : k = p.trail.level := by omega
      rw [last, here, Option.some.injEq] at ha
      have low := wf.depth_le_level l
      refine ⟨l, ha, holds, ?_⟩
      change p.trail.depth l ≤ k + 1
      omega
  followed := h.followed

/-- What the assumptions ask for, once levels were opened for those that hold already. -/
structure Requested (base : Valuation → Prop) (as : List (Literal Nat)) (p : Propagator n)
    (request : Request n) (p' : Propagator n) : Prop where
  wellFormed : p'.WellFormed
  frame : p' = { p with trail := p'.trail }
  lits : p'.trail.lits = p.trail.lits
  cells : p'.trail.cells = p.trail.cells
  under : Under base as p'
  answer : match request with
    | .refused => p'.trail.level ≤ as.length ∧
      ∃ l : Lit n, l.toLiteral ∈ as ∧ p'.trail.eval l = some false
    | .settled => as.length ≤ p'.trail.level
    | .wanted l => p'.trail.eval l = none ∧ as[p'.trail.level]? = some l.toLiteral

/-- Assumptions that hold open empty levels, up to the first one that is false or has no value. -/
theorem openAssumed_spec (rest : List (Literal Nat)) (p : Propagator n) (h : p.WellFormed)
    (done : p.head = p.trail.size) (under : Under base as p)
    (allocated : ∀ a ∈ as, a.var < n) (left : rest = as.drop p.trail.level) :
    Yields (openAssumed rest p) fun (request, p') => Requested base as p request p' := by
  induction rest generalizing p with
  | nil =>
    refine Yields.ok ⟨h, rfl, rfl, rfl, under, ?_⟩
    exact List.drop_eq_nil_iff.1 left.symm
  | cons a rest ih =>
    have here : as[p.trail.level]? = some a := by
      have front := congrArg List.head? left
      rwa [List.head?_cons, List.head?_drop, eq_comm] at front
    have mem : a ∈ as := List.mem_of_getElem? here
    have short : p.trail.level < as.length := (List.getElem?_eq_some_iff.1 here).1
    obtain ⟨l, found, rfl⟩ := Lit.lookup_of_lt (allocated a mem)
    rw [openAssumed, found]
    dsimp only [bind, Except.bind]
    cases value : p.trail.eval l with
    | none => exact Yields.pure ⟨h, rfl, rfl, rfl, under, value, here⟩
    | some b =>
      cases b with
      | false => exact Yields.pure ⟨h, rfl, rfl, rfl, under, Nat.le_of_lt short, l, mem, value⟩
      | true =>
        have left' : rest = as.drop p.trail.openLevel.level := by
          rw [Trail.level_openLevel, ← List.tail_drop, ← left, List.tail_cons]
        refine (ih _ (h.openLevel done) done (under.openLevel here value h.trail) left').mono ?_
        rintro ⟨request, p'⟩ ⟨wf', frame, lits, cells, under', answer⟩
        exact ⟨wf', frame, lits, cells, under', answer⟩

end Propagator

end IncrementalSat
