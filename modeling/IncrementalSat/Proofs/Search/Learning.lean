import IncrementalSat.Engine.Search
import IncrementalSat.Proofs.Analysis.Learned
import IncrementalSat.Proofs.Search.Measure

/-!
# Learning from a conflict

After the jump back the first literal of the learnt clause is unassigned and the others are false,
so the clause implies it. The clause is new: any clause with the same literals would have been false
with two watched literals at the level of the conflict, and the learnt one has a single such literal.
-/
namespace IncrementalSat

open Analysis (Learned)

namespace Analysis

/-- Rating the clauses anew changes nothing in what was learnt. -/
theorem Learned.of_matches {n : Nat} {p : Propagator n} {b : Backjump n} {s : ClauseStore n} (h : Learned p b)
    (same : p.store.Matches Clause.Rated s) : Learned { p with store := s } b where
  falsified := h.falsified
  distinct := h.distinct
  asserting := h.asserting
  above := h.above
  highest := h.highest
  second := h.second
  unit := h.unit
  jump := h.jump
  entailed := by
    intro σ valid
    refine h.entailed σ ⟨?_, valid.facts⟩
    intro i c hc
    obtain ⟨d, hd, rated⟩ := same.has hc
    rw [← rated.lits]
    exact valid.clauses i d hd
  occurs := by
    intro l hl
    obtain ⟨i, c, hc, mem⟩ := h.occurs l hl
    obtain ⟨d, hd, rated⟩ := same.has hc
    exact ⟨i, d, hd, by rwa [rated.lits]⟩

end Analysis

namespace Propagator

variable {n : Nat} {p : Propagator n} {b : Backjump n}

/-- What learning leads to. -/
structure Asserted (p : Propagator n) (b : Backjump n) (p' : Propagator n) : Prop where
  wellFormed : p'.WellFormed
  refines : p.Refines p'
  consistent : p'.consistent = p.consistent
  starts : p'.trail.starts = (p.trail.backtrack b.level).starts
  lits : p'.trail.lits = (p.trail.backtrack b.level).lits.push b.asserting
  progress : (p'.signatures.card = p.signatures.card + 1 ∧ p.fixedVars ⊆ p'.fixedVars) ∨
    (p'.signatures = p.signatures ∧ p.fixedVars.card < p'.fixedVars.card)

/-! ## The jump -/

/-- A jump below the current level takes back everything that was not propagated. -/
theorem Linked.head_backtrack (h : p.Linked) {k : Nat} (low : k < p.trail.level) :
    (p.backtrack k).head = (p.backtrack k).trail.size := by
  have hk : k < p.trail.starts.size := low
  have size := h.trail.size_backtrack hk
  have le := h.trail.size_backtrack_le k
  have reached : (p.trail.backtrack k).size ≤ p.head := by
    by_contra early
    have now := h.current p.head (Nat.le_refl _) (by omega)
    have before := (h.trail.levelAt_le_iff hk p.head).2 (by omega)
    omega
  exact Nat.min_eq_right reached

/-- A clause can be stored when it implies its first literal, if its second one became false at the
current level. -/
theorem WellFormed.attach_implied (wf : p.WellFormed) (done : p.head = p.trail.size) {c : Clause n}
    (distinct : (c.lits.map (·.var)).Nodup) (fresh : p.trail.eval c.first = none)
    (falsified : ∀ m ∈ c.second :: c.rest, p.trail.eval m = some false)
    (full : p.trail.depth c.second = p.trail.level) :
    ((p.attach c).assign c.first (.clause p.store.size)).WellFormed := by
  have linked : (p.attach c).Linked := wf.toLinked.attach distinct
  have has : (p.attach c).store.Has p.store.size c :=
    (p.store.has_push_iff ..).2 (.inr ⟨rfl, rfl⟩)
  refine ⟨linked.assign fresh (linked.justified_first has falsified), ?_⟩
  intro j d hd w hw k hk at_k
  have lt : k < p.trail.size := Nat.lt_of_lt_of_eq hk done
  have old : p.trail.lits[k]? = some w.neg := by
    rcases (Trail.position_assign ..).1 at_k with old | ⟨here, -⟩
    · exact old
    · exact absurd here (Nat.ne_of_lt lt)
  have value := (wf.trail.eval_eq_false_iff w).2 ⟨k, old⟩
  rcases (p.store.has_push_iff c j d).1 hd with earlier | ⟨-, rfl⟩
  · exact (wf.served j d earlier w hw k (by omega) old).assign fresh value
  · rcases hw with eq | eq <;> subst eq
    · rw [fresh] at value
      cases value
    · refine ⟨c.first, by simp [Clause.lits], Trail.eval_assign_self .., ?_⟩
      change (p.trail.assign c.first _).depth c.first ≤ (p.trail.assign c.first _).depth c.second
      rw [Trail.depth_assign_of_eval fresh value, Trail.depth_assign, if_pos rfl, full]

variable (h : p.WellFormed) (learned : Learned p b)

include h learned

theorem level_jump : (p.backtrack b.level).trail.level = b.level := by
  change (p.trail.backtrack b.level).level = b.level
  rw [h.trail.level_backtrack]
  exact Nat.min_eq_left (Nat.le_of_lt learned.jump)

theorem eval_jump_asserting : (p.backtrack b.level).trail.eval b.asserting = none := by
  change (p.trail.backtrack b.level).eval b.asserting = none
  have := learned.jump
  rw [h.trail.eval_backtrack, if_neg]
  rw [learned.asserting]
  omega

theorem eval_jump_other {l : Lit n} (hl : l ∈ b.others) :
    (p.backtrack b.level).trail.eval l = some false := by
  change (p.trail.backtrack b.level).eval l = some false
  rw [h.trail.eval_backtrack, if_pos (learned.highest l hl)]
  exact learned.falsified l (List.mem_cons_of_mem _ hl)

theorem depth_jump_other {l : Lit n} (hl : l ∈ b.others) :
    (p.backtrack b.level).trail.depth l = p.trail.depth l := by
  change (p.trail.backtrack b.level).depth l = p.trail.depth l
  rw [h.trail.depth_backtrack, if_pos (learned.highest l hl)]

/-! ## A learnt unit -/

theorem asserted_unit (unit : b.others = []) :
    p.Asserted b ((p.backtrack b.level).assign b.asserting .root) := by
  have back := h.backtrack b.level
  have zero := learned.unit unit
  have root : (p.backtrack b.level).trail.level = 0 := (level_jump h learned).trans zero
  have fresh := eval_jump_asserting h learned
  have fixes : ∀ l, ((p.backtrack b.level).assign b.asserting .root).Fixes l ↔
      l = b.asserting ∨ p.Fixes l := by
    intro l
    rw [fixes_assign_root_iff back root fresh, fixes_backtrack_iff h.trail]
  refine ⟨back.assign_root root fresh _, ⟨?_, ?_, ?_⟩, rfl, rfl, rfl, .inr ⟨rfl, ?_⟩⟩
  · intro σ valid
    refine ⟨valid.clauses, fun l hl => ?_⟩
    rcases (fixes l).1 hl with rfl | old
    · obtain ⟨m, hm, holds⟩ := learned.entailed σ valid
      rw [unit, List.mem_singleton] at hm
      exact hm ▸ holds
    · exact valid.facts l old
  · exact ⟨fun _ _ hc problem => .of_has hc problem fun _ hl => hl,
      fun l hl => (fixes l).2 (.inr hl)⟩
  · rintro v (clause | ⟨l, hl, same⟩)
    · exact .inl clause
    · rcases (fixes l).1 hl with rfl | old
      · obtain ⟨i, c, hc, mem⟩ := learned.occurs b.asserting (by simp)
        exact .inl ⟨i, c, hc, b.asserting, mem, same⟩
      · exact .inr ⟨l, old, same⟩
  · refine Finset.card_lt_card ⟨fixedVars_mono fun l hl => (fixes l).2 (.inr hl), ?_⟩
    intro sub
    have mem := sub ((mem_fixedVars_iff _ b.asserting.var).2
      ⟨b.asserting, (fixes _).2 (.inl rfl), rfl⟩)
    obtain ⟨l, fixed, same⟩ := (mem_fixedVars_iff p _).1 mem
    have deep : p.trail.depth l = p.trail.level := by
      rw [← learned.asserting, Trail.depth, Trail.depth, same]
    have := fixed.2
    have := learned.jump
    omega

/-! ## A learnt clause -/

/-- No clause has the literals of the learnt one. -/
theorem learnt_is_new {i : Nat} {d : Clause n} (hd : p.store.Has i d) :
    ¬ ∀ l, l ∈ d.lits ↔ l ∈ b.asserting :: b.others := by
  intro same
  have conflict := h.conflicting hd fun l hl => learned.falsified l ((same l).1 hl)
  have only : ∀ w, d.Watches w → w = b.asserting := by
    intro w hw
    rcases List.mem_cons.1 ((same w).1 hw.mem) with eq | other
    · exact eq
    · have low := learned.highest w other
      have := conflict.watched w hw
      have := learned.jump
      omega
  apply h.toLinked.watched_ne hd
  rw [only d.first (.inl rfl), only d.second (.inr rfl)]

theorem asserted_clause {second : Lit n} {rest : List (Lit n)} (others : b.others = second :: rest) :
    p.Asserted b (((p.backtrack b.level).attach
      { first := b.asserting, second, rest, learnt := true }).assign b.asserting
        (.clause p.store.size)) := by
  set c : Clause n := { first := b.asserting, second, rest, learnt := true } with c_eq
  have lits : c.lits = b.asserting :: b.others := by rw [others]; rfl
  have distinct : (c.lits.map (·.var)).Nodup := by rw [lits]; exact learned.distinct
  have mem : second ∈ b.others := by rw [others]; exact List.mem_cons_self
  have deep : p.trail.depth second = b.level := learned.second second (by rw [others]; rfl)
  have back := h.backtrack b.level
  have fresh := eval_jump_asserting h learned
  have level := level_jump h learned
  have above : (p.backtrack b.level).trail.level ≠ 0 := by
    have := learned.above second mem
    omega
  have fixes : ∀ l, (((p.backtrack b.level).attach c).assign b.asserting
      (.clause p.store.size)).Fixes l ↔ p.Fixes l := by
    intro l
    rw [fixes_assign_iff (p := (p.backtrack b.level).attach c) above fresh]
    exact fixes_backtrack_iff h.trail b.level l
  have wf := back.attach_implied (h.toLinked.head_backtrack learned.jump) distinct fresh
    (fun m hm => eval_jump_other h learned (by rw [others]; exact hm))
    ((depth_jump_other h learned mem).trans (deep.trans level.symm))
  refine ⟨wf, ⟨?_, ?_, ?_⟩, rfl, rfl, rfl, .inl ⟨?_, ?_⟩⟩
  · intro σ valid
    refine ⟨?_, fun l hl => valid.facts l ((fixes l).1 hl)⟩
    intro j d hd
    rcases (p.store.has_push_iff c j d).1 hd with old | ⟨-, rfl⟩
    · exact valid.clauses j d old
    · rw [lits]
      exact learned.entailed σ valid
  · refine ⟨fun j d hd problem => ?_, fun l hl => (fixes l).2 hl⟩
    exact .of_has ((p.store.has_push_iff c j d).2 (.inl hd)) problem fun _ hl => hl
  · rintro v (⟨j, d, hd, l, hl, same⟩ | ⟨l, hl, same⟩)
    · rcases (p.store.has_push_iff c j d).1 hd with old | ⟨-, rfl⟩
      · exact .inl ⟨j, d, old, l, hl, same⟩
      · rw [lits] at hl
        obtain ⟨i, e, he, mem⟩ := learned.occurs l hl
        exact .inl ⟨i, e, he, l, mem, same⟩
    · exact .inr ⟨l, (fixes l).1 hl, same⟩
  · refine signature_attach distinct h.store ?_
    intro j d hd
    rw [lits]
    exact learnt_is_new h learned hd
  · exact fixedVars_mono fun l hl => (fixes l).2 hl

/-- Learning stores a clause with a new signature, or fixes a variable. -/
theorem learn_spec : Yields (p.learn b) (p.Asserted b) := by
  unfold learn
  rw [h.retreat]
  cases others : b.others with
  | nil => exact Yields.pure (asserted_unit h learned others)
  | cons second rest =>
    have asserted := asserted_clause h learned others
    set c : Clause n := { first := b.asserting, second, rest, learnt := true } with c_eq
    have has : ((p.backtrack b.level).attach c).store.Has p.store.size c :=
      (p.store.has_push_iff ..).2 (.inr ⟨rfl, rfl⟩)
    refine has.touch.bind ?_
    intro s same
    have reordered := same.mono fun _ _ r => r.reordered
    refine Yields.pure ⟨asserted.wellFormed.of_matches same, asserted.refines.trans
      (.of_matches reordered), asserted.consistent, asserted.starts, asserted.lits, ?_⟩
    have signatures := signatures_of_matches
      (p := ((p.backtrack b.level).attach c).assign b.asserting (.clause p.store.size)) reordered
    rcases asserted.progress with ⟨card, sub⟩ | ⟨same, card⟩
    · exact .inl ⟨(congrArg Finset.card signatures).trans card, sub⟩
    · exact .inr ⟨signatures.trans same, card⟩

end Propagator

end IncrementalSat
