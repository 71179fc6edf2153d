import IncrementalSat.Proofs.Branching.Choice
import IncrementalSat.Proofs.Search.Assumptions
import IncrementalSat.Proofs.Search.Limit

/-!
# Steps of a search

A step keeps the invariant of searching and makes what remains to be done smaller, or it ends the
search with a verdict that is right. What remains is, first, how often the limit of learnt clauses
can still be raised; second, how many clauses can be learnt and variables fixed until then; third,
a restart that is due, or the variables without a value.
-/
namespace IncrementalSat

namespace Engine

variable {n : Nat} {start e : Engine n} {as : List (Literal Nat)}

/-- The parts of an engine fit together. -/
structure WellFormed (e : Engine n) : Prop where
  propagator : e.toPropagator.WellFormed
  heap : e.order.heap.Complete
  clear : ∀ v : Fin n, e.seen.get v = false

/-- The fields that a search leaves alone. -/
structure Keeps (start e : Engine n) : Prop where
  config : e.config = start.config
  marks : e.marks = start.marks
  eliminations : e.eliminations = start.eliminations
  eliminates : e.eliminates = start.eliminates
  model : e.model = start.model

theorem Keeps.refl (e : Engine n) : e.Keeps e := ⟨rfl, rfl, rfl, rfl, rfl⟩

theorem Keeps.trans {e' : Engine n} (h : start.Keeps e) (h' : e.Keeps e') : start.Keeps e' where
  config := h'.config.trans h.config
  marks := h'.marks.trans h.marks
  eliminations := h'.eliminations.trans h.eliminations
  eliminates := h'.eliminates.trans h.eliminates
  model := h'.model.trans h.model

/-- What holds while a search that began with `start` is under way. -/
structure Searching (start : Engine n) (as : List (Literal Nat)) (e : Engine n) : Prop where
  wellFormed : e.WellFormed
  keeps : start.Keeps e
  refines : start.toPropagator.Refines e.toPropagator
  under : Propagator.Under start.Valid as e.toPropagator
  consistent : e.consistent = true
  limit : Limit e.learntLimit

/-- What holds when a search has ended. -/
structure Ended (start : Engine n) (as : List (Literal Nat)) (verdict : Verdict) (e : Engine n) :
    Prop where
  wellFormed : e.WellFormed
  keeps : start.Keeps e
  refines : start.toPropagator.Refines e.toPropagator
  done : e.consistent = true → e.head = e.trail.size
  consistent : e.consistent = true ↔ verdict ≠ .unsat
  right : match verdict with
    | .sat => (∀ a ∈ as, ∃ l : Lit n, l.toLiteral = a ∧ e.trail.eval l = some true) ∧
      ∀ v : Fin n, e.marks.decision.get v = true → e.trail.valueOf v ≠ none
    | .unsat => e.trail.level = 0 ∧ ∀ σ, ¬ start.Valid σ
    | .failed => as ≠ [] ∧ ∀ σ, start.Valid σ → ¬ ∀ a ∈ as, a.Holds σ

/-! ## What remains -/

/-- How much can still be learnt, over all limits. -/
def toLearn (e : Engine n) : Nat :=
  limitRoom e.learntLimit * (3 ^ n + n + 1) + (3 ^ n - e.signatures.card) + (n - e.fixedVars.card)

/-- What remains of a search, with a restart due or not. -/
def remaining (restartDue : Bool) (e : Engine n) : Nat :=
  e.toLearn * (n + 2) + if restartDue then n + 1 else n - e.trail.size

theorem remaining_lt_of_toLearn {e e' : Engine n} (h : e'.toLearn < e.toLearn) (b b' : Bool) :
    e'.remaining b' < e.remaining b := by
  have least : (e'.toLearn + 1) * (n + 2) ≤ e.toLearn * (n + 2) := Nat.mul_le_mul_right _ h
  rw [Nat.add_mul] at least
  have rest : (if b' then n + 1 else n - e'.trail.size) ≤ n + 1 := by
    split <;> omega
  unfold remaining
  omega

theorem toLearn_lt (limit : Limit e.learntLimit) :
    e.toLearn < 2 ^ 64 * (3 ^ n + n + 1) := by
  have room : (limitRoom e.learntLimit + 1) * (3 ^ n + n + 1) ≤ 2 ^ 64 * (3 ^ n + n + 1) :=
    Nat.mul_le_mul_right _ (limitRoom_lt limit)
  rw [Nat.add_mul] at room
  have positive : 0 < 3 ^ n := Nat.pow_pos (by decide)
  unfold toLearn
  omega

/-- The bound on the number of steps is large enough. -/
theorem remaining_lt_searchBound (limit : Limit e.learntLimit) :
    e.remaining false < searchBound n := by
  have least : (e.toLearn + 1) * (n + 2) ≤ 2 ^ 64 * (3 ^ n + n + 1) * (n + 2) :=
    Nat.mul_le_mul_right _ (toLearn_lt limit)
  rw [Nat.add_mul] at least
  have bound : searchBound n =
      2 ^ 64 * (3 ^ n + n + 1) * (n + 2) + 2 ^ 64 * (3 ^ n + n + 1) := Nat.mul_succ ..
  rw [bound, remaining]
  simp only [Bool.false_eq_true, if_false]
  omega

theorem toLearn_le {e e' : Engine n} (limit : e'.learntLimit = e.learntLimit)
    (learnt : e'.signatures = e.signatures) (fixed : e.fixedVars ⊆ e'.fixedVars) :
    e'.toLearn ≤ e.toLearn := by
  have more := Finset.card_le_card fixed
  unfold toLearn
  rw [limit, learnt]
  omega

theorem remaining_le {e e' : Engine n} (h : e'.toLearn ≤ e.toLearn)
    (longer : e.trail.size ≤ e'.trail.size) (b : Bool) : e'.remaining b ≤ e.remaining b := by
  have scaled := Nat.mul_le_mul_right (n + 2) h
  unfold remaining
  split <;> omega

/-- Learning a clause or fixing a variable leaves less to be learnt. -/
theorem toLearn_lt_of_progress {e e' : Engine n} (limit : e'.learntLimit = e.learntLimit)
    (progress : (e'.signatures.card = e.signatures.card + 1 ∧ e.fixedVars ⊆ e'.fixedVars) ∨
      (e'.signatures = e.signatures ∧ e.fixedVars.card < e'.fixedVars.card)) :
    e'.toLearn < e.toLearn := by
  have learnt := e'.card_signatures_le
  have fixed := e'.card_fixedVars_le
  unfold toLearn
  rw [limit]
  rcases progress with ⟨more, sub⟩ | ⟨same, more⟩
  · have := Finset.card_le_card sub
    omega
  · rw [same]
    omega

/-- Raising the limit makes up for all clauses that were dropped. -/
theorem toLearn_lt_of_raise {e e' : Engine n}
    (raised : limitRoom e'.learntLimit < limitRoom e.learntLimit)
    (fixed : e'.fixedVars = e.fixedVars) : e'.toLearn < e.toLearn := by
  have room : (limitRoom e'.learntLimit + 1) * (3 ^ n + n + 1) ≤
      limitRoom e.learntLimit * (3 ^ n + n + 1) := Nat.mul_le_mul_right _ raised
  rw [Nat.add_mul] at room
  have positive : 0 < 3 ^ n := Nat.pow_pos (by decide)
  unfold toLearn
  rw [fixed]
  omega

/-! ## Propagation and conflicts -/

namespace Searching

theorem sound (h : Searching start as e) : ∀ σ, start.Valid σ → e.Valid σ := h.refines.sound

/-- Only the propagator, the limit, the heap and the marks matter. -/
theorem of_eq {e' : Engine n} (h : Searching start as e)
    (propagator : e'.toPropagator = e.toPropagator) (limit : e'.learntLimit = e.learntLimit)
    (heap : e'.order.heap.Complete) (seen : e'.seen = e.seen) (keeps : e.Keeps e') :
    Searching start as e' where
  wellFormed := ⟨propagator ▸ h.wellFormed.propagator, heap, seen ▸ h.wellFormed.clear⟩
  keeps := h.keeps.trans keeps
  refines := propagator ▸ h.refines
  under := propagator ▸ h.under
  consistent := by rw [propagator]; exact h.consistent
  limit := limit ▸ h.limit

theorem propagate (h : Searching start as e) : Yields (e.propagating (·.propagate))
    fun (conflict, e') => Searching start as e' ∧ e'.toLearn ≤ e.toLearn ∧
      e.trail.size ≤ e'.trail.size ∧
      match conflict with
      | none => e'.head = e'.trail.size
      | some i => ∃ c, e'.store.Has i c ∧ e'.Conflicting c := by
  refine (Propagator.propagate_spec h.wellFormed.propagator).bind ?_
  rintro ⟨conflict, p⟩ ⟨step, wf, answer⟩
  have old := h.wellFormed.propagator.trail
  refine Yields.pure ⟨⟨⟨wf, h.wellFormed.heap, h.wellFormed.clear⟩, ?_, ?_, ?_, ?_, h.limit⟩,
    ?_, step.size_le, answer⟩
  · exact h.keeps.trans ⟨rfl, rfl, rfl, rfl, rfl⟩
  · exact h.refines.trans (.of_extends step old wf.trail)
  · exact h.under.extends old wf.trail h.sound step
  · exact step.consistent.trans h.consistent
  · exact toLearn_le rfl (Propagator.signatures_extends step)
      (Propagator.fixedVars_mono fun _ fixed => step.fixes old wf.trail fixed)

theorem learnFrom (h : Searching start as e) (above : e.trail.level ≠ 0) {i : Nat} {c : Clause n}
    (hc : e.store.Has i c) (conflicting : e.Conflicting c) : Yields (e.learnFrom i)
    fun e' => Searching start as e' ∧ e'.toLearn < e.toLearn := by
  have wf := h.wellFormed.propagator
  unfold Engine.learnFrom
  refine (Analysis.run_spec wf.toLinked above hc conflicting e.order e.seen h.wellFormed.heap
    h.wellFormed.clear).bind ?_
  rintro ⟨b, a⟩ ⟨learned, rated, heap, clear, -⟩
  have reordered : e.store.Matches Clause.Reordered a.store := rated.mono fun _ _ r => r.reordered
  have refines := h.refines.trans (.of_matches reordered)
  have under : Propagator.Under start.Valid as { e.toPropagator with store := a.store } :=
    h.under.of_trail_eq rfl
  have wf' := wf.of_matches rated
  have learned' := learned.of_matches rated
  refine (Propagator.learn_spec wf' learned').bind ?_
  intro p step
  refine Yields.pure ⟨⟨⟨step.wellFormed, heap, clear⟩, ?_, ?_, ?_, ?_, h.limit⟩, ?_⟩
  · exact h.keeps.trans ⟨rfl, rfl, rfl, rfl, rfl⟩
  · exact refines.trans step.refines
  · exact under.asserted wf' refines.sound learned' step
  · exact step.consistent.trans h.consistent
  · have signatures := Propagator.signatures_of_matches (p := e.toPropagator) reordered
    refine toLearn_lt_of_progress rfl ?_
    rw [← signatures]
    exact step.progress

/-! ## Restarts and limits -/

theorem restart (h : Searching start as e) : Yields e.restart fun e' =>
    Searching start as e' ∧ e'.toLearn ≤ e.toLearn := by
  have wf := h.wellFormed.propagator
  unfold Engine.restart Engine.retreat
  rw [wf.retreat]
  have fixes : ∀ l, (e.toPropagator.backtrack 0).Fixes l ↔ e.Fixes l :=
    Propagator.fixes_backtrack_iff wf.trail 0
  refine Yields.pure
    ⟨⟨⟨wf.backtrack 0, h.wellFormed.heap, h.wellFormed.clear⟩, ?_, ?_, ?_, ?_, h.limit⟩, ?_⟩
  · exact h.keeps.trans ⟨rfl, rfl, rfl, rfl, rfl⟩
  · exact h.refines.trans (.backtrack wf.trail 0)
  · exact h.under.backtrack wf.trail 0
  · exact h.consistent
  · exact toLearn_le rfl rfl (Propagator.fixedVars_mono fun l fixed => (fixes l).2 fixed)

theorem trimLearnts (h : Searching start as e) : Yields e.trimLearnts fun e' =>
    Searching start as e' ∧ e'.toLearn ≤ e.toLearn ∧ e'.trail = e.trail ∧ e'.head = e.head := by
  unfold Engine.trimLearnts
  split
  · next reached =>
    refine (Propagator.reduceLearnts_spec h.wellFormed.propagator).bind ?_
    rintro p ⟨wf, refines, frame⟩
    have trail : p.trail = e.trail := by rw [frame]
    have consistent : p.consistent = e.consistent := by rw [frame]
    obtain ⟨limit, raised⟩ := h.limit.raise (finite_of_reached (of_decide_eq_true reached))
    refine Yields.pure ⟨⟨⟨wf, h.wellFormed.heap, h.wellFormed.clear⟩, ?_, ?_, ?_, ?_, limit⟩,
      ?_, trail, by rw [frame]⟩
    · exact h.keeps.trans ⟨rfl, rfl, rfl, rfl, rfl⟩
    · exact h.refines.trans refines
    · exact h.under.of_trail_eq trail
    · exact consistent.trans h.consistent
    · refine Nat.le_of_lt (toLearn_lt_of_raise raised ?_)
      change Finset.filter _ _ = Finset.filter _ _
      rw [trail]
  · exact Yields.ok ⟨h, Nat.le_refl _, rfl, rfl⟩

/-! ## Decisions -/

theorem decideOn (h : Searching start as e) (done : e.head = e.trail.size) {l : Lit n}
    (fresh : e.trail.eval l = none)
    (next : as[e.trail.level]? = some l.toLiteral ∨ as.length ≤ e.trail.level) :
    Searching start as (e.decideOn l) ∧ (e.decideOn l).toLearn ≤ e.toLearn := by
  have wf := h.wellFormed.propagator
  have opened := wf.openLevel done
  have above : e.trail.openLevel.level ≠ 0 := by
    rw [Trail.level_openLevel]
    omega
  have fixes : ∀ m, (e.decideOn l).Fixes m ↔ e.Fixes m := fun m =>
    Propagator.fixes_assign_iff (p := { e.toPropagator with trail := e.trail.openLevel })
      above fresh .decision m
  refine ⟨⟨⟨wf.decide done fresh, h.wellFormed.heap, h.wellFormed.clear⟩, ?_, ?_, ?_, ?_,
    h.limit⟩, ?_⟩
  · exact h.keeps.trans ⟨rfl, rfl, rfl, rfl, rfl⟩
  · exact h.refines.trans (.of_fixes_iff rfl fixes)
  · exact h.under.decide fresh next
  · exact h.consistent
  · exact toLearn_le rfl rfl (Propagator.fixedVars_mono fun m fixed => (fixes m).2 fixed)

theorem openAssumed (h : Searching start as e) (done : e.head = e.trail.size)
    (allocated : ∀ a ∈ as, a.var < n) :
    Yields (e.propagating (·.openAssumed (as.drop e.trail.level))) fun (request, e') =>
      Searching start as e' ∧ e'.toLearn ≤ e.toLearn ∧ e'.trail.size = e.trail.size ∧
        e'.head = e'.trail.size ∧
        match request with
        | .refused => e'.trail.level ≤ as.length ∧
          ∃ l : Lit n, l.toLiteral ∈ as ∧ e'.trail.eval l = some false
        | .settled => as.length ≤ e'.trail.level
        | .wanted l => e'.trail.eval l = none ∧ as[e'.trail.level]? = some l.toLiteral := by
  refine (Propagator.openAssumed_spec _ _ h.wellFormed.propagator done h.under allocated rfl).bind ?_
  rintro ⟨request, p⟩ step
  have store : p.store = e.store := by rw [step.frame]
  have consistent : p.consistent = e.consistent := by rw [step.frame]
  have head : p.head = e.head := by rw [step.frame]
  have size : p.trail.size = e.trail.size := congrArg Array.size step.lits
  have fixes := Propagator.fixes_congr step.cells
  refine Yields.pure ⟨⟨⟨step.wellFormed, h.wellFormed.heap, h.wellFormed.clear⟩, ?_, ?_,
    step.under, ?_, h.limit⟩, ?_, size, head.trans (done.trans size.symm), step.answer⟩
  · exact h.keeps.trans ⟨rfl, rfl, rfl, rfl, rfl⟩
  · exact h.refines.trans (.of_fixes_iff store fixes)
  · exact consistent.trans h.consistent
  · exact toLearn_le rfl (Propagator.signatures_congr store)
      (Propagator.fixedVars_mono fun l fixed => (fixes l).2 fixed)

/-! ## Verdicts -/

/-- An assumption that is false cannot hold together with the others. -/
theorem failed (h : Searching start as e) (done : e.head = e.trail.size) {l : Lit n}
    (mem : l.toLiteral ∈ as) (false : e.trail.eval l = some .false)
    (low : e.trail.level ≤ as.length) : Ended start as .failed e where
  wellFormed := h.wellFormed
  keeps := h.keeps
  refines := h.refines
  done := fun _ => done
  consistent := by simp [h.consistent]
  right := by
    refine ⟨List.ne_nil_of_mem mem, fun σ valid assumed => ?_⟩
    have opposite := (Trail.eval_neg_eq_true_iff ..).2 false
    have shallow : e.trail.depth l.neg ≤ as.length :=
      Nat.le_trans (h.wellFormed.propagator.trail.depth_le_level _) low
    have holds := (Lit.holds_toLiteral_iff ..).1 (assumed _ mem)
    exact (Lit.holds_neg_iff σ l).1 (h.under.followed σ valid assumed l.neg opposite shallow) holds

/-- The search ends well when all assumptions hold and there is nothing left to branch on. -/
theorem satisfied (h : Searching start as e) (done : e.head = e.trail.size)
    (settled : as.length ≤ e.trail.level)
    (complete : ∀ v : Fin n, e.marks.decision.get v = true → e.trail.valueOf v ≠ none) :
    Ended start as .sat e where
  wellFormed := h.wellFormed
  keeps := h.keeps
  refines := h.refines
  done := fun _ => done
  consistent := by simp [h.consistent]
  right := by
    refine ⟨?_, complete⟩
    intro a ha
    obtain ⟨k, hk⟩ := List.getElem?_of_mem ha
    have short := (List.getElem?_eq_some_iff.1 hk).1
    obtain ⟨m, same, holds, -⟩ := h.under.assumed k (by omega) a hk
    exact ⟨m, same, holds⟩

/-- A conflict at the root level refutes the clauses. -/
theorem refuted (h : Searching start as e) (root : e.trail.level = 0) {i : Nat} {c : Clause n}
    (hc : e.store.Has i c) (conflicting : e.Conflicting c) :
    Ended start as .unsat { e with consistent := false } where
  wellFormed := ⟨h.wellFormed.propagator.of_eq rfl rfl rfl rfl, h.wellFormed.heap,
    h.wellFormed.clear⟩
  keeps := h.keeps.trans ⟨rfl, rfl, rfl, rfl, rfl⟩
  refines := h.refines.trans (.of_fixes_iff rfl fun _ => Iff.rfl)
  done := by
    intro consistent
    cases consistent
  consistent := by simp
  right := by
    refine ⟨root, fun σ valid => ?_⟩
    exact conflicting.not_valid h.wellFormed.propagator.trail root hc (h.sound σ valid)

end Searching

/-! ## One step -/

/-- What a step leads to. -/
def Leads (start : Engine n) (as : List (Literal Nat)) (bound : Nat) : Progress × Engine n → Prop
  | (.finished verdict, e) => Ended start as verdict e
  | (.running restartDue, e) => Searching start as e ∧ e.remaining restartDue < bound

theorem Leads.mono {bound bound' : Nat} {out : Progress × Engine n} (h : Leads start as bound out)
    (le : bound ≤ bound') : Leads start as bound' out := by
  obtain ⟨progress, e⟩ := out
  cases progress with
  | finished verdict => exact h
  | running due => exact ⟨h.1, Nat.lt_of_lt_of_le h.2 le⟩

namespace Searching

/-- A decision leaves one variable less without a value. -/
theorem leads_of_decideOn (h : Searching start as e) (done : e.head = e.trail.size) {l : Lit n}
    (fresh : e.trail.eval l = none)
    (next : as[e.trail.level]? = some l.toLiteral ∨ as.length ≤ e.trail.level) :
    Leads start as (e.remaining false) (.running false, e.decideOn l) := by
  obtain ⟨searching, learn⟩ := h.decideOn done fresh next
  have size : (e.decideOn l).trail.size = e.trail.size + 1 := Trail.size_assign ..
  have most : (e.decideOn l).trail.size ≤ n := searching.wellFormed.propagator.trail.size_le
  have scaled := Nat.mul_le_mul_right (n + 2) learn
  refine ⟨searching, ?_⟩
  unfold remaining
  simp only [Bool.false_eq_true, if_false]
  omega

/-- Once the assumptions hold, the search branches, or there is nothing left to branch on. -/
theorem pickBranch (h : Searching start as e) (done : e.head = e.trail.size)
    (settled : as.length ≤ e.trail.level) :
    match e.pickBranch with
    | (none, e') => Ended start as .sat e'
    | (some l, e') => Leads start as (e.remaining false) (.running false, e'.decideOn l) := by
  have heap := h.wellFormed.heap
  have chosen : Searching start as { e with order := (e.order.choose e.isEligible).2 } :=
    h.of_eq rfl rfl heap.choose rfl ⟨rfl, rfl, rfl, rfl, rfl⟩
  unfold Engine.pickBranch
  change match ((e.order.heap.choose e.isEligible).1.map fun v => (⟨v, e.preferredSign v⟩ : Lit n),
    ({ e with order := (e.order.choose e.isEligible).2 } : Engine n)) with
    | (none, e') => Ended start as .sat e'
    | (some l, e') => Leads start as (e.remaining false) (.running false, e'.decideOn l)
  cases choice : (e.order.heap.choose e.isEligible).1 with
  | none =>
    refine chosen.satisfied done settled ?_
    intro v decision unset
    have skipped := heap.not_eligible_of_choose choice v
    simp only [isEligible, decision, unset] at skipped
    cases skipped
  | some v =>
    have eligible := heap.eligible_of_choose choice
    simp only [isEligible, Bool.and_eq_true, Option.isNone_iff_eq_none] at eligible
    exact chosen.leads_of_decideOn done ((Trail.eval_eq_none_iff ..).2 eligible.2) (.inr settled)

theorem branch (h : Searching start as e) (done : e.head = e.trail.size)
    (allocated : ∀ a ∈ as, a.var < n) :
    Yields (e.branch as) (Leads start as (e.remaining false)) := by
  unfold Engine.branch
  refine (h.openAssumed done allocated).bind ?_
  rintro ⟨request, e'⟩ ⟨searching, learn, size, done', answer⟩
  have less : ∀ out, Leads start as (e'.remaining false) out →
      Leads start as (e.remaining false) out := fun _ leads =>
    leads.mono (remaining_le learn (Nat.le_of_eq size.symm) _)
  cases request with
  | refused =>
    obtain ⟨low, l, mem, false⟩ := answer
    exact Yields.pure (searching.failed done' mem false low)
  | wanted l =>
    obtain ⟨fresh, here⟩ := answer
    exact Yields.pure (less _ (searching.leads_of_decideOn done' fresh (.inl here)))
  | settled =>
    have picked := searching.pickBranch done' answer
    dsimp only
    cases choice : e'.pickBranch with
    | mk l e'' =>
      rw [choice] at picked
      cases l with
      | none => exact Yields.pure picked
      | some l => exact Yields.pure (less _ picked)

theorem resolveConflict (h : Searching start as e) (restartDue : Bool) {i : Nat} {c : Clause n}
    (hc : e.store.Has i c) (conflicting : e.Conflicting c) :
    Yields (e.resolveConflict restartDue i) (Leads start as (e.remaining restartDue)) := by
  have counted : Searching start as e.countConflict :=
    h.of_eq rfl rfl h.wellFormed.heap rfl ⟨rfl, rfl, rfl, rfl, rfl⟩
  unfold Engine.resolveConflict
  dsimp only
  split
  · next root => exact Yields.pure (counted.refuted root hc conflicting)
  · next above =>
    refine (counted.learnFrom above hc conflicting).bind ?_
    rintro e' ⟨searching, less⟩
    exact Yields.pure ⟨searching.of_eq rfl rfl searching.wellFormed.heap rfl
      ⟨rfl, rfl, rfl, rfl, rfl⟩, remaining_lt_of_toLearn less _ _⟩

end Searching

/-- A step leads on within the search, with less that remains, or to its end. -/
theorem searchStep_spec (h : Searching start as e) (allocated : ∀ a ∈ as, a.var < n)
    (restartDue : Bool) :
    Yields (searchStep as restartDue e) (Leads start as (e.remaining restartDue)) := by
  unfold searchStep
  refine h.propagate.bind ?_
  rintro ⟨conflict, e'⟩ ⟨searching, learn, size, answer⟩
  have less := remaining_le learn size
  cases conflict with
  | some i =>
    obtain ⟨c, hc, conflicting⟩ := answer
    exact (searching.resolveConflict restartDue hc conflicting).mono fun _ leads =>
      leads.mono (less _)
  | none =>
    dsimp only
    split
    · next due =>
      refine searching.restart.bind ?_
      rintro e'' ⟨restarted, same⟩
      have scaled := Nat.mul_le_mul_right (n + 2) (Nat.le_trans same learn)
      refine Yields.pure ⟨restarted, ?_⟩
      unfold remaining
      rw [if_pos due, if_neg Bool.false_ne_true]
      omega
    · next continued =>
      have flag : restartDue = false := by simpa using continued
      refine searching.trimLearnts.bind ?_
      rintro e'' ⟨trimmed, learn', trail, head⟩
      have done : e''.head = e''.trail.size := by rw [trail, head]; exact answer
      refine (trimmed.branch done allocated).mono fun _ leads => leads.mono ?_
      have same : e'.trail.size ≤ e''.trail.size := Nat.le_of_eq (by rw [trail])
      rw [flag]
      exact Nat.le_trans (remaining_le learn' same _) (less _)

/-! ## The whole search -/

/-- The loop of a search takes this many steps to its verdict. -/
inductive Takes (as : List (Literal Nat)) :
    Nat → Bool → Engine n → Verdict → Engine n → Prop where
  | last {restartDue : Bool} {e e' : Engine n} {verdict : Verdict}
      (step : searchStep as restartDue e = .ok (.finished verdict, e')) :
      Takes as 1 restartDue e verdict e'
  | next {k : Nat} {restartDue due : Bool} {e e' e'' : Engine n} {verdict : Verdict}
      (step : searchStep as restartDue e = .ok (.running due, e'))
      (rest : Takes as k due e' verdict e'') : Takes as (k + 1) restartDue e verdict e''

/-- A search that stays within its bound is the loop without a bound. -/
theorem takes_of_searchUpTo {k : Nat} {restartDue : Bool} {e e' : Engine n} {verdict : Verdict}
    (result : searchUpTo as k restartDue e = .ok (verdict, e')) :
    ∃ j ≤ k, Takes as j restartDue e verdict e' := by
  induction k generalizing restartDue e with
  | zero => cases result
  | succ k ih =>
    unfold searchUpTo at result
    cases step : searchStep as restartDue e with
    | error fault =>
      rw [step] at result
      cases result
    | ok out =>
      obtain ⟨progress, e₁⟩ := out
      rw [step] at result
      cases progress with
      | finished verdict' =>
        cases result
        exact ⟨1, Nat.le_add_left 1 k, .last step⟩
      | running due =>
        obtain ⟨j, bound, rest⟩ := ih result
        exact ⟨j + 1, Nat.succ_le_succ bound, .next step rest⟩

/-- With enough steps a search ends. -/
theorem searchUpTo_spec (allocated : ∀ a ∈ as, a.var < n) (k : Nat) (restartDue : Bool)
    (e : Engine n) (h : Searching start as e) (enough : e.remaining restartDue < k) :
    Yields (searchUpTo as k restartDue e) fun (verdict, e') => Ended start as verdict e' := by
  induction k generalizing restartDue e with
  | zero => omega
  | succ k ih =>
    unfold searchUpTo
    refine (searchStep_spec h allocated restartDue).bind ?_
    rintro ⟨progress, e'⟩ leads
    cases progress with
    | finished verdict => exact Yields.pure leads
    | running due => exact ih due e' leads.1 (Nat.lt_of_lt_of_le leads.2 (Nat.le_of_lt_succ enough))

/-- A search that starts at the root level, without a known contradiction, ends with a verdict
that is right. -/
theorem search_spec (wf : e.WellFormed) (root : e.trail.level = 0) (consistent : e.consistent = true)
    (limit : Limit e.learntLimit) (allocated : ∀ a ∈ as, a.var < n) :
    Yields (e.search as) fun (verdict, e') => Ended e as verdict e' :=
  searchUpTo_spec allocated _ false e
    ⟨wf, .refl e, .refl _, .of_root wf.propagator.trail root fun _ valid => valid, consistent, limit⟩
    (remaining_lt_searchBound limit)

end Engine

end IncrementalSat
