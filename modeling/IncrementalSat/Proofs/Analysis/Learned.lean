import IncrementalSat.Proofs.Analysis.Walk

/-!
# The learnt clause

The implication point and the collected literals follow from the clauses. Literals that the others
imply can be dropped, as reasons point backwards on the trail. The highest level among the literals
that stay is the level to jump back to.
-/
namespace IncrementalSat

namespace Analysis

variable {n : Nat} {p : Propagator n} {a : Analysis n} {u : Lit n}

/-- What a learnt clause is worth. -/
structure Learned (p : Propagator n) (b : Backjump n) : Prop where
  falsified : ∀ l ∈ b.asserting :: b.others, p.trail.eval l = some false
  distinct : ((b.asserting :: b.others).map (·.var)).Nodup
  asserting : p.trail.depth b.asserting = p.trail.level
  above : ∀ l ∈ b.others, 0 < p.trail.depth l
  highest : ∀ l ∈ b.others, p.trail.depth l ≤ b.level
  second : ∀ l ∈ b.others.head?, p.trail.depth l = b.level
  unit : b.others = [] → b.level = 0
  jump : b.level < p.trail.level
  entailed : ∀ σ, p.Valid σ → Lit.AnyHolds σ (b.asserting :: b.others)
  occurs : ∀ l ∈ b.asserting :: b.others, ∃ i c, p.store.Has i c ∧ l ∈ c.lits

/-! ## Minimization -/

/-- The reason of the negation has no literals but false ones that are marked or fixed, and these
stand earlier on the trail. -/
def Redundant (p : Propagator n) (a : Analysis n) (l : Lit n) : Prop :=
  ∃ i c, p.store.Has i c ∧ ∀ k : Nat, p.trail.lits[k]? = some l.neg → ∀ m ∈ c.lits, m ≠ l.neg →
    (a.Sees m.var ∨ p.trail.depth m = 0) ∧ ∃ j < k, p.trail.lits[j]? = some m.neg

theorem depth_of_levelOf {t : Trail n} {l : Lit n} (h : t.levelOf l.var = some 0) :
    t.depth l = 0 := by
  simp [Trail.depth, h]

/-- The reason of a literal that is found redundant has only marked and fixed literals beside it. -/
theorem isRedundant_spec (linked : p.Linked) (h : Pivot p u a) {l : Lit n} (hl : l ∈ a.lower) :
    Yields (a.isRedundant p.trail l) fun redundant => redundant = true → Redundant p a l := by
  obtain ⟨position, marked⟩ := h.marked
  obtain ⟨⟨false, seen⟩, low⟩ := marked.lower l hl
  obtain ⟨k, hk⟩ := (linked.trail.eval_eq_false_iff l).1 false
  unfold isRedundant
  cases linked.justified k l.neg hk with
  | fixed _ reason =>
    rw [show p.trail.reasonOf l.var = some .root from reason]
    exact Yields.ok (by simp)
  | decided _ reason _ =>
    rw [show p.trail.reasonOf l.var = some .decision from reason]
    exact Yields.ok (by simp)
  | implied _ i c reason hc first others =>
    rw [show p.trail.reasonOf l.var = some (.clause i) from reason]
    obtain ⟨d, hd, rated⟩ := marked.store.has hc
    dsimp only
    rw [hd.fetch]
    refine Yields.pure fun all => ⟨i, c, hc, ?_⟩
    intro k' hk' m hm other
    cases linked.trail.position_unique hk hk' rfl
    refine ⟨?_, others m hm other⟩
    rw [rated.lits, List.all_eq_true] at all
    have redundant := all m hm
    simp only [Bool.or_eq_true, beq_iff_eq] at redundant
    rcases redundant with (same | marked) | root
    · exfalso
      have nodup := linked.store.distinct i c hc
      have mem : c.first ∈ c.lits := by simp [Clause.lits]
      rw [first] at mem
      exact other (List.inj_on_of_nodup_map nodup hm mem same)
    · exact .inl marked
    · exact .inr (depth_of_levelOf root)

/-- Minimising keeps some of the literals, and drops only redundant ones. -/
theorem minimize_spec (linked : p.Linked) (h : Pivot p u a) (k : Nat) (kept : Array (Lit n))
    (pending : List (Lit n)) (length : pending.length = k) (inside : ∀ l ∈ pending, l ∈ a.lower) :
    Yields (a.minimize p.trail kept pending) fun r =>
      r.toList.Subperm (kept.toList ++ pending) ∧ (∀ l ∈ kept, l ∈ r) ∧
        ∀ l ∈ pending, l ∈ r ∨ Redundant p a l := by
  induction k generalizing kept pending with
  | zero =>
    cases List.eq_nil_of_length_eq_zero length
    rw [minimize]
    exact Yields.ok ⟨by simpa using List.Subperm.refl _, fun _ hl => hl, by simp⟩
  | succ k ih =>
    cases pending with
    | nil => simp at length
    | cons l pending =>
      simp only [List.length_cons, Nat.add_right_cancel_iff] at length
      rw [minimize]
      refine (isRedundant_spec linked h (inside l (by simp))).bind ?_
      intro redundant why
      have perm := lastToFront_perm pending
      cases redundant with
      | true =>
        have inside' : ∀ m ∈ lastToFront pending, m ∈ a.lower :=
          fun m hm => inside m (List.mem_cons_of_mem _ (perm.mem_iff.1 hm))
        refine (ih kept (lastToFront pending) (by simpa using length) inside').mono ?_
        rintro r ⟨sub, old, rest⟩
        refine ⟨?_, old, ?_⟩
        · have shorter := ((List.sublist_cons_self l pending).append_left kept.toList).subperm
          exact sub.trans ((perm.append_left kept.toList).subperm.trans shorter)
        · intro m hm
          rcases List.mem_cons.1 hm with rfl | hm
          · exact .inr (why rfl)
          · exact rest m (perm.mem_iff.2 hm)
      | false =>
        have inside' : ∀ m ∈ pending, m ∈ a.lower :=
          fun m hm => inside m (List.mem_cons_of_mem _ hm)
        refine (ih (kept.push l) pending length inside').mono ?_
        rintro r ⟨sub, old, rest⟩
        refine ⟨by simpa using sub, fun m hm => old m (Array.mem_push.2 (.inl hm)), ?_⟩
        intro m hm
        rcases List.mem_cons.1 hm with rfl | hm
        · exact .inl (old m (Array.mem_push.2 (.inr rfl)))
        · exact rest m hm

/-- Where all kept literals fail, every collected literal does, from the start of the trail on: the
reason of a dropped one has only literals that fail before it. -/
theorem Pivot.not_holds_of_kept (h : Pivot p u a) (wf : p.trail.WellFormed) {kept : List (Lit n)}
    (rest : ∀ l ∈ a.lower, l ∈ kept ∨ Redundant p a l) {σ : Valuation} (valid : p.Valid σ)
    (fails : ∀ l ∈ kept, ¬ l.Holds σ) {l : Lit n} (collected : l ∈ a.lower) : ¬ l.Holds σ := by
  obtain ⟨position, marked⟩ := h.marked
  have all : ∀ (k : Nat) (l : Lit n), l ∈ a.lower → p.trail.lits[k]? = some l.neg →
      ¬ l.Holds σ := by
    intro k
    induction k using Nat.strongRecOn with
    | ind k ih =>
      intro l hl hk
      rcases rest l hl with stays | ⟨i, c, hc, others⟩
      · exact fails l stays
      · obtain ⟨m, hm, holds⟩ := valid.clauses i c hc
        by_cases same : m = l.neg
        · rw [same] at holds
          exact (Lit.holds_neg_iff σ l).1 holds
        · exfalso
          obtain ⟨why, j, hj, at_j⟩ := others k hk m hm same
          have false := (wf.eval_eq_false_iff m).2 ⟨j, at_j⟩
          rcases why with seen | root
          · have low := (marked.lower l hl).2
            have depth : p.trail.depth l = p.trail.levelAt k := wf.depth_of_position (l := l.neg) hk
            have depth' : p.trail.depth m = p.trail.levelAt j :=
              wf.depth_of_position (l := m.neg) at_j
            have mono := p.trail.levelAt_mono (Nat.le_of_lt hj)
            have mem := marked.collected m ⟨false, seen⟩ (by omega)
            exact ih j hj m mem at_j holds
          · have fixed : p.Fixes m.neg := ⟨(Trail.eval_neg_eq_true_iff ..).2 false, root⟩
            exact (Lit.holds_neg_iff σ m).1 (valid.facts _ fixed) holds
  obtain ⟨k, hk⟩ := (wf.eval_eq_false_iff l).1 (marked.lower l collected).1.1
  exact all k l collected hk

/-- What minimizing makes of the collected literals. -/
structure Minimized (p : Propagator n) (u : Lit n) (collected kept : List (Lit n)) : Prop where
  entailed : ∀ σ, p.Valid σ → Lit.AnyHolds σ (u :: collected)
  subperm : kept.Subperm collected
  /-- Wherever a literal holds that was dropped, one that stays holds. -/
  implied : ∀ l ∈ collected, ∀ σ, p.Valid σ → l.Holds σ → Lit.AnyHolds σ kept

/-- Dropping redundant literals leaves a consequence. -/
theorem Minimized.entailed_kept {collected kept : List (Lit n)} (h : Minimized p u collected kept)
    {σ : Valuation} (valid : p.Valid σ) : Lit.AnyHolds σ (u :: kept) := by
  obtain ⟨l, hl, holds⟩ := h.entailed σ valid
  rcases List.mem_cons.1 hl with rfl | dropped
  · exact ⟨l, List.mem_cons_self, holds⟩
  · exact (h.implied l dropped σ valid holds).mono fun _ => List.mem_cons_of_mem u

theorem Pivot.minimized (h : Pivot p u a) (wf : p.trail.WellFormed) {kept : List (Lit n)}
    (sub : kept.Subperm a.lower.toList) (rest : ∀ l ∈ a.lower, l ∈ kept ∨ Redundant p a l) :
    Minimized p u a.lower.toList kept where
  entailed := by
    intro σ valid
    rcases h.derived σ valid with holds | ⟨l, hl, holds⟩
    · exact ⟨u, List.mem_cons_self, holds⟩
    · exact ⟨l, List.mem_cons_of_mem u (Array.mem_toList_iff.2 hl), holds⟩
  subperm := sub
  implied := by
    intro l hl σ valid holds
    by_contra none
    exact h.not_holds_of_kept wf rest valid (fun m hm holds => none ⟨m, hm, holds⟩)
      (Array.mem_toList_iff.1 hl) holds

/-! ## The level to jump back to -/

/-- What is found is as deep as every literal and as what was best before, and is one of them. -/
theorem lastDeepest_spec (t : Trail n) (ls : List (Lit n)) (i : Nat) (best : Nat × Nat) :
    best.2 ≤ (t.lastDeepest ls i best).2 ∧ (∀ l ∈ ls, t.depth l ≤ (t.lastDeepest ls i best).2) ∧
      (t.lastDeepest ls i best = best ∨
        ∃ j l, ls[j]? = some l ∧ t.lastDeepest ls i best = (i + j, t.depth l)) := by
  induction ls generalizing i best with
  | nil => exact ⟨Nat.le_refl _, by simp, .inl rfl⟩
  | cons l ls ih =>
    rw [Trail.lastDeepest]
    obtain ⟨low, all, found⟩ := ih (i + 1) (if best.2 ≤ t.depth l then (i, t.depth l) else best)
    have better : best.2 ≤ (if best.2 ≤ t.depth l then (i, t.depth l) else best).2 ∧
        t.depth l ≤ (if best.2 ≤ t.depth l then (i, t.depth l) else best).2 := by
      split
      · next le => exact ⟨le, Nat.le_refl _⟩
      · next gt => exact ⟨Nat.le_refl _, by omega⟩
    refine ⟨by omega, ?_, ?_⟩
    · intro m hm
      rcases List.mem_cons.1 hm with rfl | hm
      · omega
      · exact all m hm
    · rcases found with same | ⟨j, m, hj, same⟩
      · rw [same]
        split
        · exact .inr ⟨0, l, by simp, by simp⟩
        · exact .inl rfl
      · exact .inr ⟨j + 1, m, by simpa using hj, by rw [same, Nat.add_assoc, Nat.add_comm 1 j]⟩

theorem swapIfInBounds_perm {α : Type} (xs : Array α) (i j : Nat) :
    (xs.swapIfInBounds i j).toList.Perm xs.toList := by
  unfold Array.swapIfInBounds
  split
  · split
    · exact (Array.swap_perm _ _).toList
    · exact .refl _
  · exact .refl _

/-- The first literal after the exchange is of the highest level, and there is one unless the list
is empty. -/
theorem jump_spec (t : Trail n) (kept : Array (Lit n)) (deep : ∀ l ∈ kept, 0 < t.depth l) :
    let found := t.lastDeepest kept.toList 0 (0, 0)
    (∀ l ∈ (kept.swapIfInBounds 0 found.1).toList.head?, t.depth l = found.2) ∧
      (found.2 = 0 ∨ ∃ l ∈ kept, t.depth l = found.2) := by
  intro found
  obtain ⟨-, highest, source⟩ := lastDeepest_spec t kept.toList 0 (0, 0)
  rcases source with none | ⟨j, l, hj, here⟩
  · have zero : found.2 = 0 := congrArg Prod.snd none
    refine ⟨?_, .inl zero⟩
    intro l hl
    have mem : l ∈ kept.toList :=
      (swapIfInBounds_perm kept 0 found.1).mem_iff.1 (List.mem_of_mem_head? hl)
    have low : t.depth l ≤ found.2 := highest l mem
    have := deep l (by simpa using mem)
    omega
  · have first : found.1 = j := (congrArg Prod.fst here).trans (Nat.zero_add j)
    have level : found.2 = t.depth l := congrArg Prod.snd here
    rw [Array.getElem?_toList] at hj
    obtain ⟨inside, at_j⟩ := Array.getElem?_eq_some_iff.1 hj
    refine ⟨?_, .inr ⟨l, Array.mem_of_getElem? hj, level.symm⟩⟩
    intro m hm
    rw [first, List.head?_eq_getElem?, Array.getElem?_toList, Option.mem_def,
      Array.getElem?_eq_some_iff] at hm
    obtain ⟨bound, front⟩ := hm
    rw [Array.getElem_swapIfInBounds_left inside] at front
    rw [level, ← front, at_j]

/-! ## The whole analysis -/

/-- The analysis before the conflict is met. -/
theorem Marked.start (store : ClauseStore n) (order : BranchingOrder n) (seen : Vector Bool n)
    (same : p.store.Matches Clause.Rated store) (heap : order.heap.Complete)
    (clear : ∀ v : Fin n, seen.get v = false) :
    Marked p p.trail.size { store, order, seen, lower := #[], pending := 0 } := by
  have unseen : ∀ v, ¬ Sees { store, order, seen, lower := #[], pending := 0 } v := by
    intro v hv
    rw [Sees, clear v] at hv
    cases hv
  refine ⟨⟨same, heap, fun v hv => absurd hv (unseen v), fun l hl => absurd hl.2 (unseen l.var)⟩,
    by simp, fun l hl => absurd hl.2 (unseen l.var), by simp, ?_⟩
  rw [eq_comm, Finset.card_eq_zero, Finset.eq_empty_iff_forall_notMem]
  intro v hv
  exact unseen v ((mem_current_iff ..).1 hv).1

/-- After the conflict is met, the clause under analysis is the conflict without what is false for
good. -/
theorem derived_of_conflicting {c : Clause n} {i : Nat} (conflicting : p.Conflicting c)
    (hc : p.store.Has i c) (met : ∀ m ∈ c.lits, p.trail.depth m = 0 ∨ a.Sees m.var) :
    Derived p a := by
  intro σ valid
  obtain ⟨m, hm, holds⟩ := valid.clauses i c hc
  have false := conflicting.falsified m hm
  rcases met m hm with root | seen
  · have fixed : p.Fixes m.neg := ⟨(Trail.eval_neg_eq_true_iff ..).2 false, root⟩
    exact absurd holds ((Lit.holds_neg_iff σ m).1 (valid.facts _ fixed))
  · exact ⟨m, ⟨false, seen⟩, holds⟩

/-- A marked variable is among the collected ones once nothing is pending. -/
theorem Pivot.collected (h : Pivot p u a) (wf : p.trail.WellFormed) {v : Fin n} (seen : a.Sees v) :
    ∃ l ∈ a.lower, l.var = v := by
  obtain ⟨position, marked⟩ := h.marked
  obtain ⟨k, l, hk, rfl, -, -⟩ := marked.below v seen
  refine ⟨l.neg, marked.collected l.neg ⟨?_, seen⟩ ?_, rfl⟩
  · exact (Trail.eval_neg_eq_false_iff ..).2 (wf.eval_of_position hk)
  · have bound := wf.depth_le_level l
    have none := marked.pending
    rw [h.settled, eq_comm, Finset.card_eq_zero] at none
    have not_full : p.trail.depth l ≠ p.trail.level := by
      intro full
      have mem : l.var ∈ current p.trail a := (mem_current_iff ..).2 ⟨seen, full⟩
      rw [none] at mem
      cases mem
    change p.trail.depth l < p.trail.level
    omega

/-- The marks that are left after unmarking some literals. -/
theorem foldl_unmark (ls : List (Lit n)) (seen : Vector Bool n) (v : Fin n) :
    (ls.foldl (fun seen l => seen.set l.var false l.var_lt) seen).get v = true ↔
      seen.get v = true ∧ ∀ l ∈ ls, l.var ≠ v := by
  induction ls generalizing seen with
  | nil => simp
  | cons l ls ih =>
    rw [List.foldl_cons, ih, sees_set_iff, List.forall_mem_cons]
    split
    · next same => simp [same]
    · next other => simp [other]

/-- Finishing clears all marks. -/
theorem Pivot.finish (h : Pivot p u a) (wf : p.trail.WellFormed) (v : Fin n) :
    a.finish.seen.get v = false := by
  rw [Bool.eq_false_iff]
  intro seen
  simp only [Analysis.finish, ← Array.foldl_toList] at seen
  obtain ⟨old, others⟩ := (foldl_unmark ..).1 seen
  obtain ⟨l, hl, same⟩ := h.collected wf old
  exact others l (by simpa using hl) same

/-- The clause built from the implication point and the literals that stay. -/
theorem Pivot.learned (h : Pivot p u a) (wf : p.trail.WellFormed) (above : p.trail.level ≠ 0)
    {kept : Array (Lit n)} (minimized : Minimized p u a.lower.toList kept.toList) :
    let found := p.trail.lastDeepest kept.toList 0 (0, 0)
    Learned p ⟨u, (kept.swapIfInBounds 0 found.1).toList, found.2⟩ := by
  obtain ⟨position, marked⟩ := h.marked
  intro found
  have inside : ∀ l ∈ kept, l ∈ a.lower := fun l hl => by
    simpa using minimized.subperm.subset (by simpa using hl)
  have deep : ∀ l ∈ a.lower, 0 < p.trail.depth l := by
    intro l hl
    obtain ⟨k, m, hk, same, level, -⟩ := marked.below l.var (marked.lower l hl).1.2
    rw [← wf.depth_of_position hk] at level
    simpa [Trail.depth, same] using level
  have perm := swapIfInBounds_perm kept 0 found.1
  have mem : ∀ l, l ∈ (kept.swapIfInBounds 0 found.1).toList ↔ l ∈ kept := fun l => by
    rw [perm.mem_iff, Array.mem_toList_iff]
  have highest := (lastDeepest_spec p.trail kept.toList 0 (0, 0)).2.1
  obtain ⟨second, source⟩ := jump_spec p.trail kept fun l hl => deep l (inside l hl)
  refine ⟨?_, ?_, h.full, ?_, ?_, second, ?_, ?_, ?_, ?_⟩
  · intro l hl
    rcases List.mem_cons.1 hl with rfl | hl
    · exact h.falsified
    · exact (marked.lower l (inside l ((mem l).1 hl))).1.1
  · rw [List.map_cons, List.nodup_cons]
    constructor
    · intro found
      obtain ⟨l, hl, same⟩ := List.mem_map.1 found
      have low := (marked.lower l (inside l ((mem l).1 hl))).2
      have full := h.full
      have equal : p.trail.depth l = p.trail.depth u := by
        unfold Trail.depth
        rw [same]
      omega
    · have nodup : (kept.toList.map (·.var)).Nodup := by
        obtain ⟨ls, order, shorter⟩ := minimized.subperm
        exact (order.map _).nodup_iff.1 (marked.nodup.sublist (shorter.map _))
      exact (perm.map _).nodup_iff.2 nodup
  · exact fun l hl => deep l (inside l ((mem l).1 hl))
  · exact fun l hl => highest l (by simpa using (mem l).1 hl)
  · intro none
    rcases source with zero | ⟨l, hl, -⟩
    · exact zero
    · have none : (kept.swapIfInBounds 0 found.1).toList = [] := none
      rw [← mem l, none] at hl
      cases hl
  · rcases source with zero | ⟨l, hl, level⟩
    · change found.2 < p.trail.level
      rw [zero]
      omega
    · have low := (marked.lower l (inside l hl)).2
      change found.2 < p.trail.level
      rwa [← level]
  · intro σ valid
    exact (Lit.anyHolds_perm (perm.cons u)).2 (minimized.entailed_kept valid)
  · intro l hl
    rcases List.mem_cons.1 hl with rfl | hl
    · exact h.occurs
    · exact marked.occurs l (marked.lower l (inside l ((mem l).1 hl))).1

/-- The walk collects literals, and minimizing keeps the others of the learnt clause. -/
def Shortens (p : Propagator n) (start : Analysis n) (i : Nat) (b : Backjump n) : Prop :=
  ∃ a kept, (start.meetClause p.trail none i >>= fun a => a.walk p.trail p.trail.size) =
      .ok (b.asserting, a) ∧
    a.minimize p.trail #[] a.lower.toList = .ok kept ∧ b.others.Perm kept.toList ∧
    Minimized p b.asserting a.lower.toList kept.toList

/-- The analysis of a conflict above the root level succeeds. What it learns follows from the
clauses, and it leaves clauses, heap and marks as they should be. -/
theorem run_spec (linked : p.Linked) (above : p.trail.level ≠ 0) {i : Nat} {c : Clause n}
    (hc : p.store.Has i c) (conflicting : p.Conflicting c) (order : BranchingOrder n)
    (seen : Vector Bool n) (heap : order.heap.Complete) (clear : ∀ v : Fin n, seen.get v = false) :
    let start : Analysis n := { store := p.store, order, seen, lower := #[], pending := 0 }
    Yields (run p.trail start i) fun (b, a') => Learned p b ∧ p.store.Matches Clause.Rated a'.store ∧
      a'.order.heap.Complete ∧ (∀ v : Fin n, a'.seen.get v = false) ∧ Shortens p start i b := by
  intro start
  have wf := linked.trail
  have marked := Marked.start p.store order seen (.refl Clause.Rated.refl p.store) heap clear
  have before : ∀ m ∈ c.lits, (none : Option (Lit n)) ≠ some m →
      ∃ k < p.trail.size, p.trail.lits[k]? = some m.neg := by
    intro m hm _
    obtain ⟨k, hk⟩ := (wf.eval_eq_false_iff m).1 (conflicting.falsified m hm)
    exact ⟨k, (Array.getElem?_eq_some_iff.1 hk).1, hk⟩
  obtain ⟨a, begun, marked, -, met⟩ := meetClause_spec marked wf hc none before
  have met : ∀ m ∈ c.lits, p.trail.depth m = 0 ∨ a.Sees m.var := fun m hm => met m hm (by simp)
  have waiting : 0 < a.pending := by
    rw [marked.pending, Finset.card_pos]
    have full := conflicting.watched c.first (.inl rfl)
    have seen := (met c.first (by simp [Clause.lits])).resolve_left (by omega)
    exact ⟨c.first.var, (mem_current_iff ..).2 ⟨seen, full⟩⟩
  have derived := derived_of_conflicting conflicting hc met
  obtain ⟨⟨u, a'⟩, walked, pivot⟩ :=
    walk_spec linked above _ a (Nat.le_refl _) marked waiting derived
  have collected : (start.meetClause p.trail none i >>= fun a => a.walk p.trail p.trail.size) =
      .ok (u, a') := bind_eq_ok_iff.2 ⟨a, begun, walked⟩
  obtain ⟨position, marked'⟩ := pivot.marked
  obtain ⟨kept, shortened, sub, -, rest⟩ :=
    minimize_spec linked pivot _ #[] a'.lower.toList rfl (by simp)
  have subset : kept.toList.Subperm a'.lower.toList := by simpa using sub
  have minimized := pivot.minimized wf subset fun l hl => by simpa using rest l (by simpa using hl)
  unfold run
  rw [begun]
  change Yields (a.walk p.trail p.trail.size >>= _) _
  rw [walked]
  change Yields (a'.minimize p.trail #[] a'.lower.toList >>= _) _
  rw [shortened]
  refine Yields.pure ⟨pivot.learned wf above minimized, ?_, ?_, pivot.finish wf, a', kept, collected,
    shortened, swapIfInBounds_perm .., minimized⟩
  · exact ⟨marked'.store.slots, marked'.store.problems, marked'.store.learnts, marked'.store.holes⟩
  · exact BranchingOrder.complete_advance (o := a'.order) marked'.heap

end Analysis

end IncrementalSat
