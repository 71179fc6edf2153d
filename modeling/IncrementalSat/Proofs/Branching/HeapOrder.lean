import IncrementalSat.Proofs.Branching.Choice

/-!
# The order of the heap

A heap is arranged if every variable is in it, slots and positions are inverse to each other, and no
variable beats the one in the slot above its own. A sift starts where only one slot may be out of
order. Towards the root, the slots below that one may not beat the slot above it; away from the root
the same is required, and the slot itself is in order with the one above.

While ineligible variables are taken out, only the heap proper is in order; putting them back brings
every variable into its order again.
-/
namespace IncrementalSat

namespace Score

theorem le_refl (x : Float) : le x x = true := le_iff.2 UInt64.le_rfl

/-- Of two scores one is at most the other. -/
theorem le_of_not_le {x y : Float} (h : ¬ le x y = true) : le y x = true :=
  (Bool.or_eq_true .. ▸ le_total x y).resolve_left h

theorem not_lt_iff {x y : Float} : ¬ lt x y = true ↔ le y x = true := by
  rw [lt_iff, le_iff, UInt64.not_lt]

theorem le_of_lt {x y : Float} (h : lt x y = true) : le x y = true :=
  le_iff.2 (UInt64.le_of_lt (lt_iff.1 h))

end Score

namespace VarHeap

variable {n : Nat} {h : VarHeap n} {p q : Fin n} {eligible : Fin n → Bool}

theorem half_lt (q : Fin n) : (q.val - 1) / 2 < n := by omega

/-- The slot above another; the root is above itself. -/
def above (q : Fin n) : Fin n := ⟨(q.val - 1) / 2, half_lt q⟩

/-- The variable in the first slot does not beat the one in the second. -/
def Defers (h : VarHeap n) (q r : Fin n) : Prop := Score.le (h.scoreAt q) (h.scoreAt r) = true

/-- In the heap proper no variable beats the one in the slot above. -/
def Ordered (h : VarHeap n) : Prop :=
  ∀ q : Fin n, 0 < q.val → q.val < h.size → h.Defers q (above q)

/-- Slots and positions are inverse to each other. -/
structure Indexed (h : VarHeap n) : Prop where
  position_slots : ∀ q : Fin n, h.position.get (h.slots.get q) = q
  slots_position : ∀ v : Fin n, h.slots.get (h.position.get v) = v

/-- The heap as it is between calls. -/
structure Arranged (h : VarHeap n) : Prop extends Indexed h where
  full : h.size = n
  ordered : h.Ordered

/-! ## Slots and positions -/

theorem scoreAt_swap (h : VarHeap n) (p q r : Fin n) : (h.swap p q).scoreAt r =
    if r = p then h.scoreAt q else if r = q then h.scoreAt p else h.scoreAt r := by
  unfold scoreAt
  rw [swap_score, slots_swap]
  split
  · rfl
  · split <;> rfl

/-- The length of the heap proper does not matter. -/
theorem defers_of_eq {h' : VarHeap n} (score : h'.score = h.score) (slots : h'.slots = h.slots)
    (q r : Fin n) : h'.Defers q r ↔ h.Defers q r := by
  rw [Defers, Defers, scoreAt, scoreAt, scoreAt, scoreAt, score, slots]

theorem defers_swap_of_ne (first : q ≠ p) {r s : Fin n} (second : q ≠ r) (first' : s ≠ p)
    (second' : s ≠ r) : (h.swap p r).Defers q s ↔ h.Defers q s := by
  simp only [Defers, scoreAt_swap, first, second, first', second', if_false]

theorem Indexed.of_eq {h' : VarHeap n} (hi : h.Indexed) (position : h'.position = h.position)
    (slots : h'.slots = h.slots) : h'.Indexed := by
  constructor
  · rw [position, slots]
    exact hi.position_slots
  · rw [position, slots]
    exact hi.slots_position

theorem Indexed.slot_eq_iff (hi : h.Indexed) (q r : Fin n) :
    h.slots.get q = h.slots.get r ↔ q = r := by
  constructor
  · intro same
    rw [← hi.position_slots q, same, hi.position_slots]
  · rintro rfl
    rfl

theorem Indexed.swap (hi : h.Indexed) (p q : Fin n) : (h.swap p q).Indexed := by
  have position : ∀ v : Fin n, (h.swap p q).position.get v = if v = h.slots.get p then
      h.position.get (h.slots.get q) else if v = h.slots.get q then h.position.get (h.slots.get p)
      else h.position.get v := fun v =>
    Vector.get_swap _ _ _ _ (Fin.isLt _) (Fin.isLt _)
  have left : ∀ r : Fin n, (h.swap p q).position.get ((h.swap p q).slots.get r) = r := by
    intro r
    rw [slots_swap]
    by_cases at_p : r = p
    · subst at_p
      rw [if_pos rfl, position, hi.position_slots, hi.position_slots]
      split
      · next same => exact (hi.slot_eq_iff ..).1 same
      · rw [if_pos rfl]
    · rw [if_neg at_p]
      by_cases at_q : r = q
      · rw [if_pos at_q, position, if_pos rfl, hi.position_slots, at_q]
      · rw [if_neg at_q, position, if_neg (mt (hi.slot_eq_iff ..).1 at_p),
          if_neg (mt (hi.slot_eq_iff ..).1 at_q), hi.position_slots]
  refine ⟨left, fun v => ?_⟩
  obtain ⟨r, rfl⟩ : ∃ r, (h.swap p q).slots.get r = v := by
    have lists : h.Lists := fun v => ⟨_, hi.slots_position v⟩
    exact lists.swap p q v
  rw [left]

theorem Indexed.siftUp (hi : h.Indexed) (p : Fin n) : (h.siftUp p).Indexed := by
  fun_induction VarHeap.siftUp h p with
  | case1 => exact hi
  | case2 => exact hi
  | case3 h p _ parent _ ih => exact ih (hi.swap p parent)

theorem Indexed.siftDown (hi : h.Indexed) (p : Fin n) : (h.siftDown p).Indexed := by
  fun_induction VarHeap.siftDown h p with
  | case1 => exact hi
  | case2 h p _ _ ih => exact ih (hi.swap p _)

theorem siftUp_score (h : VarHeap n) (p : Fin n) : (h.siftUp p).score = h.score := by
  fun_induction VarHeap.siftUp h p <;> simp_all

theorem siftDown_score (h : VarHeap n) (p : Fin n) : (h.siftDown p).score = h.score := by
  fun_induction VarHeap.siftDown h p <;> simp_all

/-! ## Towards the root -/

/-- Slots below `p` do not beat the slot above it. -/
def Bridged (h : VarHeap n) (p : Fin n) : Prop :=
  0 < p.val → ∀ q : Fin n, 0 < q.val → q.val < h.size → above q = p → h.Defers q (above p)

/-- All is in order, except that `p` may beat the slot above it. -/
structure Rising (h : VarHeap n) (p : Fin n) : Prop where
  others : ∀ q : Fin n, 0 < q.val → q.val < h.size → q ≠ p → h.Defers q (above q)
  bridged : h.Bridged p

theorem Defers.trans {r : Fin n} (hq : h.Defers p q) (hr : h.Defers q r) : h.Defers p r :=
  Score.le_trans hq hr

theorem Defers.refl (h : VarHeap n) (p : Fin n) : h.Defers p p := Score.le_refl _

theorem above_lt (positive : 0 < p.val) : (above p).val < p.val := by
  simp only [above]
  omega

theorem above_ne (positive : 0 < p.val) : above p ≠ p :=
  fun same => Nat.ne_of_lt (above_lt positive) (congrArg Fin.val same)

/-- Exchanged with the slot above, the variable may only be out of order there. -/
theorem Rising.move (hr : h.Rising p) (positive : 0 < p.val) (inside : p.val < h.size)
    (beats : ¬ h.Defers p (above p)) : (h.swap p (above p)).Rising (above p) := by
  have lower := above_ne positive
  have defers : h.Defers (above p) p := Score.le_of_not_le beats
  have up : 0 < (above p).val → h.Defers (above p) (above (above p)) := fun high =>
    hr.others _ high (Nat.lt_trans (above_lt positive) inside) lower
  constructor
  · intro q high low other
    by_cases at_p : q = p
    · subst at_p
      simpa [Defers, scoreAt_swap, lower] using defers
    · have old := hr.others q high low at_p
      by_cases child : above q = p
      · have across := hr.bridged positive q high low child
        simpa [Defers, scoreAt_swap, at_p, other, child] using across
      · by_cases sibling : above q = above p
        · rw [sibling] at old
          simpa [Defers, scoreAt_swap, at_p, other, sibling, lower] using old.trans defers
        · exact (defers_swap_of_ne at_p other child sibling).2 old
  · intro high q high' low child
    have apart : above (above p) ≠ p :=
      Fin.ne_of_val_ne (Nat.ne_of_lt (Nat.lt_trans (above_lt high) (above_lt positive)))
    have apart' : above (above p) ≠ above p := above_ne high
    by_cases at_p : q = p
    · subst at_p
      simpa [Defers, scoreAt_swap, apart, apart'] using up high
    · have other : q ≠ above p := by
        rintro rfl
        exact above_ne high child
      have old := hr.others q high' low at_p
      rw [child] at old
      exact (defers_swap_of_ne at_p other apart apart').2 (old.trans (up high))

theorem Rising.siftUp (hr : h.Rising p) (inside : p.val < h.size) : (h.siftUp p).Ordered := by
  fun_induction VarHeap.siftUp h p with
  | case1 h p root =>
    intro q high low
    refine hr.others q high low ?_
    rintro rfl
    omega
  | case2 h p _ parent fits =>
    intro q high low
    by_cases at_p : q = p
    · subst at_p
      exact fits
    · exact hr.others q high low at_p
  | case3 h p root parent beats ih =>
    have positive : 0 < p.val := Nat.pos_of_ne_zero root
    exact ih (hr.move positive inside beats) (Nat.lt_trans (above_lt positive) inside)

/-! ## Away from the root -/

/-- All is in order, except that slots below `p` may beat it. -/
structure Sinking (h : VarHeap n) (p : Fin n) : Prop where
  others : ∀ q : Fin n, 0 < q.val → q.val < h.size → above q ≠ p → h.Defers q (above q)
  bridged : h.Bridged p

theorem Ordered.sinking (ho : h.Ordered) (p : Fin n) : h.Sinking p where
  others := fun q high low _ => ho q high low
  bridged := by
    intro high q high' low child
    have first := ho q high' low
    rw [child] at first
    exact first.trans (ho p high (Nat.lt_trans (child ▸ above_lt high') low))

theorem defers_betterChild (h : VarHeap n) (best : Fin n) (child : Nat) :
    h.Defers best (h.betterChild best child) := by
  unfold betterChild
  split
  · dsimp only
    split
    · next better => exact Score.le_of_lt better
    · exact .refl h best
  · exact .refl h best

theorem child_defers_betterChild (h : VarHeap n) (best : Fin n) {c : Fin n}
    (inside : c.val < h.size) : h.Defers c (h.betterChild best c.val) := by
  unfold betterChild
  rw [dif_pos inside]
  dsimp only
  split
  · exact .refl h c
  · next worse => exact Score.not_lt_iff.1 worse

/-- No slot below `p` beats the best of the family. -/
theorem child_defers_best (h : VarHeap n) {c : Fin n} (high : 0 < c.val) (inside : c.val < h.size)
    (child : above c = p) : h.Defers c (h.bestOfFamily p) := by
  have which : c.val = 2 * p.val + 1 ∨ c.val = 2 * p.val + 2 := by
    have := congrArg Fin.val child
    simp only [above] at this
    omega
  unfold bestOfFamily
  rcases which with left | right
  · rw [← left]
    exact (h.child_defers_betterChild p inside).trans (h.defers_betterChild _ _)
  · rw [← right]
    exact h.child_defers_betterChild _ inside

theorem defers_best (h : VarHeap n) (p : Fin n) : h.Defers p (h.bestOfFamily p) :=
  (h.defers_betterChild p _).trans (h.defers_betterChild _ _)

theorem above_best (h : VarHeap n) (moved : h.bestOfFamily p ≠ p) :
    above (h.bestOfFamily p) = p := by
  have which : (h.bestOfFamily p).val = 2 * p.val + 1 ∨ (h.bestOfFamily p).val = 2 * p.val + 2 := by
    unfold bestOfFamily at moved ⊢
    rcases h.betterChild_eq (h.betterChild p (2 * p.val + 1)) (2 * p.val + 2) with same | right
    · rw [same] at moved ⊢
      exact .inl ((h.betterChild_eq p _).resolve_left moved)
    · exact .inr right
  apply Fin.ext
  simp only [above]
  omega

/-- Exchanged with the best slot below, the variable may only be out of order there. -/
theorem Sinking.move (hs : h.Sinking p) (moved : h.bestOfFamily p ≠ p) :
    (h.swap p (h.bestOfFamily p)).Sinking (h.bestOfFamily p) := by
  have under := h.above_best moved
  have inside := h.bestOfFamily_lt moved
  have best := fun c => h.child_defers_best (p := p) (c := c)
  have defers := h.defers_best p
  have later : p.val < (h.bestOfFamily p).val := (h.bestOfFamily_eq p).resolve_left moved
  generalize h.bestOfFamily p = b at *
  constructor
  · intro q high low other
    by_cases at_p : q = p
    · subst at_p
      have up : above q ≠ q := above_ne high
      have across := hs.bridged high b (by omega) inside under
      simpa [Defers, scoreAt_swap, up, other] using across
    · by_cases at_b : q = b
      · subst at_b
        simpa [Defers, scoreAt_swap, at_p, under] using defers
      · by_cases child : above q = p
        · have old := best q high low child
          simpa [Defers, scoreAt_swap, at_p, at_b, child] using old
        · exact (defers_swap_of_ne at_p at_b child other).2 (hs.others q high low child)
  · intro high q high' low child
    have not_p : q ≠ p := by
      rintro rfl
      have := above_lt high'
      rw [child] at this
      omega
    have not_b : q ≠ b := by
      rintro rfl
      exact above_ne high child
    have old := hs.others q high' low (by rw [child]; exact moved)
    rw [child] at old
    simpa [Defers, scoreAt_swap, not_p, not_b, under] using old

theorem Sinking.siftDown (hs : h.Sinking p) : (h.siftDown p).Ordered := by
  fun_induction VarHeap.siftDown h p with
  | case1 h p stays =>
    intro q high low
    by_cases child : above q = p
    · have best := h.child_defers_best high low child
      rwa [stays, ← child] at best
    · exact hs.others q high low child
  | case2 h p moved _ ih => exact ih (hs.move moved)

/-! ## Both ways -/

/-- All is in order, except that `p` may beat the slot above it, or slots below may beat `p`. -/
structure Loose (h : VarHeap n) (p : Fin n) : Prop where
  others : ∀ q : Fin n, 0 < q.val → q.val < h.size → q ≠ p → above q ≠ p → h.Defers q (above q)
  bridged : h.Bridged p

theorem siftUp_of_stays (stays : p.val = 0 ∨ h.Defers p (above p)) : h.siftUp p = h := by
  unfold VarHeap.siftUp
  by_cases root : p.val = 0
  · rw [dif_pos root]
  · rw [dif_neg root]
    exact if_pos (stays.resolve_left root)

/-- A sift towards the root leaves at most one away from it to be done. -/
theorem Loose.siftUp (hl : h.Loose p) (inside : p.val < h.size) : (h.siftUp p).Sinking p := by
  by_cases stays : p.val = 0 ∨ h.Defers p (above p)
  · rw [siftUp_of_stays stays]
    refine ⟨fun q high low child => ?_, hl.bridged⟩
    by_cases at_p : q = p
    · subst at_p
      exact stays.resolve_left (Nat.ne_of_gt high)
    · exact hl.others q high low at_p child
  · -- The slots below do not beat the slot above, which `p` beats, so they do not beat `p`.
    obtain ⟨root, beats⟩ := not_or.1 stays
    have positive : 0 < p.val := Nat.pos_of_ne_zero root
    have rising : h.Rising p := by
      refine ⟨fun q high low other => ?_, hl.bridged⟩
      by_cases child : above q = p
      · have across := hl.bridged positive q high low child
        rw [child]
        exact across.trans (Score.le_of_not_le beats)
      · exact hl.others q high low other child
    exact (rising.siftUp inside).sinking p

theorem defers_set_of_ne {v : Fin n} (x : Float) {r : Fin n} (first : h.slots.get q ≠ v)
    (second : h.slots.get r ≠ v) :
    Defers { h with score := h.score.set v x v.isLt } q r ↔ h.Defers q r := by
  simp [Defers, scoreAt, first.symm, second.symm]

/-- A change of the score of one variable can put only its slot out of order. -/
theorem Ordered.loose (ho : h.Ordered) (hi : h.Indexed) (v : Fin n) (x : Float) :
    Loose { h with score := h.score.set v x v.isLt } (h.position.get v) := by
  have other : ∀ q : Fin n, q ≠ h.position.get v → h.slots.get q ≠ v := by
    rintro q away rfl
    exact away (hi.position_slots q).symm
  constructor
  · intro q high low away child
    exact (defers_set_of_ne x (other q away) (other _ child)).2 (ho q high low)
  · intro high q high' low child
    have below : q ≠ h.position.get v := by
      rintro rfl
      exact above_ne high' child
    have old := (ho.sinking _).bridged high q high' low child
    exact (defers_set_of_ne x (other q below) (other _ (above_ne high))).2 old

/-! ## The operations -/

namespace Arranged

variable (ha : h.Arranged)

include ha

theorem lists : h.Lists := fun v => ⟨_, ha.slots_position v⟩

theorem complete : h.Complete := ⟨ha.lists, ha.full⟩

theorem setScore (v : Fin n) (x : Float) : (h.setScore v x).Arranged := by
  have inside : (h.position.get v).val < h.size := by
    rw [ha.full]
    exact Fin.isLt _
  have sinking := (ha.ordered.loose ha.toIndexed v x).siftUp inside
  have indexed : Indexed { h with score := h.score.set v x v.isLt } := ha.toIndexed.of_eq rfl rfl
  rw [VarHeap.setScore, if_pos inside]
  refine ⟨(indexed.siftUp _).siftDown _, ?_, sinking.siftDown⟩
  rw [siftDown_size, siftUp_size]
  exact ha.full

/-- A monotone change of all scores keeps the order. -/
theorem mapScores {f : Float → Float}
    (monotone : ∀ x y, Score.le x y = true → Score.le (f x) (f y) = true) :
    (h.mapScores f).Arranged where
  position_slots := ha.position_slots
  slots_position := ha.slots_position
  full := ha.full
  ordered := by
    intro q high low
    have old := monotone _ _ (ha.ordered q high low)
    simpa [Defers, scoreAt, VarHeap.mapScores] using old

/-- The next variable starts in the last slot. -/
theorem push (x : Float) : ∃ h', h.push x = .ok h' ∧ h'.Arranged ∧ h'.score = h.score.push x := by
  rw [VarHeap.push, if_pos ha.full]
  have slot : ∀ q : Fin n, ((h.slots.map Fin.castSucc).push (Fin.last n)).get q.castSucc =
      (h.slots.get q).castSucc := fun q => by simp
  refine ⟨_, rfl, ⟨Indexed.siftUp ⟨?_, ?_⟩ _, ?_, Rising.siftUp ⟨?_, ?_⟩ ?_⟩, ?_⟩
  · intro q
    refine Fin.lastCases (by simp) (fun r => ?_) q
    simp [ha.position_slots]
  · intro v
    refine Fin.lastCases (by simp) (fun w => ?_) v
    simp [ha.slots_position]
  · rw [siftUp_size]
    exact congrArg Nat.succ ha.full
  · intro q
    refine Fin.lastCases (fun _ _ other => absurd rfl other) (fun r high low _ => ?_) q
    have inside : r.val < h.size := by
      rw [ha.full]
      exact r.isLt
    have old := ha.ordered r high inside
    have up : above r.castSucc = (above r).castSucc := rfl
    rw [Defers, up]
    simpa [Defers, scoreAt] using old
  · intro _ q high low child
    have last := congrArg Fin.val child
    have := q.isLt
    simp only [above, Fin.val_last] at last
    omega
  · have := ha.full
    simp only [Fin.val_last]
    omega
  · rw [siftUp_score]

end Arranged

/-! ## Choosing -/

theorem Indexed.extract (hi : h.Indexed) : h.extract.Indexed := by
  unfold VarHeap.extract
  split
  · exact hi
  · have bound := h.size_le
    refine Indexed.siftDown ?_ _
    exact (hi.swap ⟨0, by omega⟩ ⟨h.size - 1, by omega⟩).of_eq rfl rfl

theorem extract_score (h : VarHeap n) : h.extract.score = h.score := by
  unfold VarHeap.extract
  split
  · rfl
  · exact siftDown_score ..

/-- The last slot takes the place of the root, and sinks from there. -/
theorem Ordered.extract (ho : h.Ordered) : h.extract.Ordered := by
  unfold VarHeap.extract
  split
  · exact ho
  · next positive =>
    have bound := h.size_le
    refine Sinking.siftDown ⟨?_, fun root => absurd root (Nat.lt_irrefl 0)⟩
    intro q high low child
    change q.val < h.size - 1 at low
    have up := above_lt high
    have not_root : q ≠ ⟨0, by omega⟩ := fun same => by simp [same] at high
    have not_last : q ≠ ⟨h.size - 1, by omega⟩ := fun same => by simp [same] at low
    have not_last' : above q ≠ ⟨h.size - 1, by omega⟩ := fun same => by
      have := congrArg Fin.val same
      simp only at this
      omega
    refine (defers_of_eq (h := h.swap ⟨0, by omega⟩ ⟨h.size - 1, by omega⟩) rfl rfl _ _).2 ?_
    exact (defers_swap_of_ne not_root not_last child not_last').2 (ho q high (by omega))

/-- No variable of the heap proper beats the root. -/
theorem Ordered.defers_root (ho : h.Ordered) {root : Fin n} (first : root.val = 0) {q : Fin n}
    (inside : q.val < h.size) : h.Defers q root := by
  obtain ⟨k, lt⟩ := q
  induction k using Nat.strongRecOn with
  | ind k ih =>
    rcases Nat.eq_zero_or_pos k with zero | positive
    · have same : (⟨k, lt⟩ : Fin n) = root := Fin.ext (zero.trans first.symm)
      exact same ▸ .refl h root
    · have up := above_lt (p := (⟨k, lt⟩ : Fin n)) positive
      exact (ho _ positive inside).trans (ih _ up _ (Nat.lt_trans up inside))

/-- The last slot of the heap proper, just put back, may only beat the slot above it. -/
theorem Ordered.restore (ho : h.Ordered) : h.restore.Ordered := by
  unfold VarHeap.restore
  split
  · next room =>
    refine Rising.siftUp ⟨?_, ?_⟩ (Nat.lt_succ_self h.size)
    · intro q high low other
      have inside : q.val < h.size :=
        Nat.lt_of_le_of_ne (Nat.le_of_lt_succ low) fun same => other (Fin.ext same)
      exact (defers_of_eq rfl rfl _ _).2 (ho q high inside)
    · intro _ q high low child
      have last := congrArg Fin.val child
      change q.val < h.size + 1 at low
      simp only [above] at last
      omega
  · exact ho

theorem Indexed.restore (hi : h.Indexed) : h.restore.Indexed := by
  unfold VarHeap.restore
  split
  · refine Indexed.siftUp ?_ _
    exact hi.of_eq rfl rfl
  · exact hi

theorem restore_score (h : VarHeap n) : h.restore.score = h.score := by
  unfold VarHeap.restore
  split
  · exact siftUp_score ..
  · rfl

theorem Ordered.restoreAll (ho : h.Ordered) (hi : h.Indexed) : h.restoreAll.Arranged := by
  fun_induction VarHeap.restoreAll h with
  | case1 h _ _ ih => exact ih ho.restore hi.restore
  | case2 h room => exact ⟨hi, Nat.le_antisymm h.size_le (Nat.not_lt.1 room), ho⟩

theorem restoreAll_score (h : VarHeap n) : h.restoreAll.score = h.score := by
  fun_induction VarHeap.restoreAll h with
  | case1 h _ _ ih => rw [ih, restore_score]
  | case2 => rfl

theorem Ordered.skipTo (ho : h.Ordered) : (h.skipTo eligible).Ordered := by
  fun_induction VarHeap.skipTo eligible h with
  | case1 => exact ho
  | case2 => exact ho
  | case3 h v _ _ _ ih => exact ih ho.extract

theorem Indexed.skipTo (hi : h.Indexed) : (h.skipTo eligible).Indexed := by
  fun_induction VarHeap.skipTo eligible h with
  | case1 => exact hi
  | case2 => exact hi
  | case3 h v _ _ _ ih => exact ih hi.extract

theorem skipTo_score (h : VarHeap n) : (h.skipTo eligible).score = h.score := by
  fun_induction VarHeap.skipTo eligible h with
  | case1 => rfl
  | case2 => rfl
  | case3 h v _ _ _ ih => rw [ih, extract_score]

theorem choose_score (h : VarHeap n) : (h.choose eligible).2.score = h.score :=
  (restoreAll_score _).trans (skipTo_score h)

namespace Arranged

variable (ha : h.Arranged)

include ha

theorem choose : (h.choose eligible).2.Arranged :=
  ha.ordered.skipTo.restoreAll ha.toIndexed.skipTo

/-- The chosen variable is at the root when only ineligible variables have been taken out. -/
theorem greatest_of_choose {v w : Fin n} (chosen : (h.choose eligible).1 = some v)
    (candidate : eligible w = true) : Score.le (h.score.get w) (h.score.get v) = true := by
  have skipped : Skipped eligible (h.skipTo eligible) := ha.complete.skipped.skipTo.1
  have ordered : (h.skipTo eligible).Ordered := ha.ordered.skipTo
  have indexed : (h.skipTo eligible).Indexed := ha.toIndexed.skipTo
  have score : (h.skipTo eligible).score = h.score := skipTo_score h
  change (h.skipTo eligible).max? = some v at chosen
  generalize h.skipTo eligible = s at *
  unfold VarHeap.max? at chosen
  split at chosen
  · cases chosen
  · next positive =>
    rw [Option.some.injEq] at chosen
    have inside : (s.position.get w).val < s.size := by
      by_contra behind
      have refused := skipped _ (Nat.not_lt.1 behind)
      rw [indexed.slots_position, candidate] at refused
      cases refused
    have filled : 0 < n := Nat.lt_of_lt_of_le (Nat.pos_of_ne_zero positive) s.size_le
    have defers : s.Defers (s.position.get w) ⟨0, filled⟩ := ordered.defers_root rfl inside
    rwa [Defers, scoreAt, scoreAt, indexed.slots_position, chosen, score] at defers

end Arranged

end VarHeap

end IncrementalSat
