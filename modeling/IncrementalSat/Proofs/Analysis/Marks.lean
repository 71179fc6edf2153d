import IncrementalSat.Proofs.Branching.Choice
import IncrementalSat.Proofs.Propagator.Refinement

/-!
# Marks of a conflict analysis

The clause under analysis consists of the false literals whose variables are marked. Those of lower
levels have been collected, those of the current level stand before the position that the walk has
reached, and their number is the number pending.
-/
namespace IncrementalSat

namespace Analysis

variable {n : Nat} {p : Propagator n} {a : Analysis n} {position : Nat} {l : Lit n}

/-- The variable is marked. -/
def Sees (a : Analysis n) (v : Fin n) : Prop := a.seen.get v = true

instance (a : Analysis n) (v : Fin n) : Decidable (a.Sees v) := inferInstanceAs (Decidable (_ = _))

/-- The literal is in the clause under analysis. -/
def Open (t : Trail n) (a : Analysis n) (l : Lit n) : Prop := t.eval l = some false ∧ a.Sees l.var

/-- The marked variables of the current level. -/
def current (t : Trail n) (a : Analysis n) : Finset (Fin n) :=
  Finset.univ.filter fun v => a.Sees v ∧ t.depth ⟨v, true⟩ = t.level

theorem mem_current_iff (t : Trail n) (a : Analysis n) (v : Fin n) :
    v ∈ current t a ↔ a.Sees v ∧ t.depth ⟨v, true⟩ = t.level := by
  simp [current]

/-- The marked variables are above the root level and occur in clauses, and those of the current
level stand before the position. -/
structure Placed (p : Propagator n) (position : Nat) (a : Analysis n) : Prop where
  store : p.store.Matches Clause.Rated a.store
  heap : a.order.heap.Complete
  below : ∀ v, a.Sees v → ∃ (k : Nat) (l : Lit n), p.trail.lits[k]? = some l ∧ l.var = v ∧
    0 < p.trail.levelAt k ∧ (p.trail.levelAt k = p.trail.level → k < position)
  occurs : ∀ l, Open p.trail a l → ∃ i c, p.store.Has i c ∧ l ∈ c.lits

/-- The marks agree with what was collected and counted. -/
structure Marked (p : Propagator n) (position : Nat) (a : Analysis n) : Prop
    extends Placed p position a where
  lower : ∀ l ∈ a.lower, Open p.trail a l ∧ p.trail.depth l < p.trail.level
  collected : ∀ l, Open p.trail a l → p.trail.depth l < p.trail.level → l ∈ a.lower
  nodup : (a.lower.toList.map (·.var)).Nodup
  pending : a.pending = (current p.trail a).card

/-- The literal is false in a clause, and stands before the position. -/
structure Early (p : Propagator n) (position : Nat) (l : Lit n) : Prop where
  before : ∃ k < position, p.trail.lits[k]? = some l.neg
  occurs : ∃ i c, p.store.Has i c ∧ l ∈ c.lits

/-- The marks of the second analysis include those of the first. -/
def Grows (a a' : Analysis n) : Prop := ∀ v, a.Sees v → a'.Sees v

theorem Early.eval (h : Early p position l) (wf : p.trail.WellFormed) :
    p.trail.eval l = some false := by
  obtain ⟨k, -, at_k⟩ := h.before
  exact (wf.eval_eq_false_iff l).2 ⟨k, at_k⟩

/-! ## Marking -/

/-- Marks a variable and raises its score. -/
def mark (a : Analysis n) (v : Fin n) : Analysis n :=
  { a with seen := a.seen.set v true v.isLt, order := a.order.touch v }

theorem sees_set_iff (seen : Vector Bool n) (v w : Fin n) (b : Bool) :
    (seen.set v b v.isLt).get w = true ↔ if v = w then b = true else seen.get w = true := by
  rw [Vector.get_set]
  split <;> rfl

theorem sees_mark_iff (a : Analysis n) (v w : Fin n) : (a.mark v).Sees w ↔ v = w ∨ a.Sees w := by
  change (a.seen.set v true).get w = true ↔ _
  rw [sees_set_iff]
  split
  · next same => simp [same]
  · next other => simp [other, Sees]

theorem meet_eq (t : Trail n) (a : Analysis n) (l : Lit n) : a.meet t l =
    if a.Sees l.var ∨ t.depth l = 0 then a
    else if t.level ≤ t.depth l then { a.mark l.var with pending := a.pending + 1 }
    else { a.mark l.var with lower := a.lower.push l } := by
  unfold meet mark
  by_cases idle : a.Sees l.var ∨ t.depth l = 0
  · rw [if_pos idle, if_pos (by simpa [Sees] using idle)]
  · rw [if_neg idle, if_neg (by simpa [Sees] using idle)]

/-- The literals of the clause under analysis after another one was marked. -/
theorem open_mark_iff {t : Trail n} (false : t.eval l = some false) (m : Lit n) :
    Open t (a.mark l.var) m ↔ m = l ∨ Open t a m := by
  rw [Open, Open, sees_mark_iff]
  constructor
  · rintro ⟨false', same | old⟩
    · exact .inl (Trail.eq_of_eval false false' same)
    · exact .inr ⟨false', old⟩
  · rintro (rfl | ⟨false', old⟩)
    · exact ⟨false, .inl rfl⟩
    · exact ⟨false', .inr old⟩

theorem Placed.mark (h : Placed p position a) (wf : p.trail.WellFormed)
    (early : Early p position l) (above : p.trail.depth l ≠ 0) :
    Placed p position (a.mark l.var) where
  store := h.store
  heap := BranchingOrder.complete_touch h.heap l.var
  below := by
    intro v hv
    rcases (sees_mark_iff a l.var v).1 hv with rfl | old
    · obtain ⟨k, hk, at_k⟩ := early.before
      have depth : p.trail.depth l = p.trail.levelAt k := wf.depth_of_position (l := l.neg) at_k
      exact ⟨k, l.neg, at_k, rfl, by omega, fun _ => hk⟩
    · exact h.below v old
  occurs := by
    intro m hm
    rcases (open_mark_iff (early.eval wf) m).1 hm with rfl | old
    · exact early.occurs
    · exact h.occurs m old

/-- Marking a literal of the current level raises the number pending. -/
theorem Marked.mark_current (h : Marked p position a) (wf : p.trail.WellFormed)
    (early : Early p position l) (unseen : ¬ a.Sees l.var) (above : p.trail.depth l ≠ 0)
    (full : p.trail.depth l = p.trail.level) :
    Marked p position { a.mark l.var with pending := a.pending + 1 } := by
  have marked := open_mark_iff (a := a) (early.eval wf)
  obtain ⟨store, heap, below, occurs⟩ := h.toPlaced.mark wf early above
  refine ⟨⟨store, heap, below, occurs⟩, ?_, ?_, h.nodup, ?_⟩
  · intro m hm
    exact ⟨(marked m).2 (.inr (h.lower m hm).1), (h.lower m hm).2⟩
  · intro m hm low
    rcases (marked m).1 hm with rfl | old
    · omega
    · exact h.collected m old low
  · have grown : current p.trail (a.mark l.var) = insert l.var (current p.trail a) := by
      ext v
      rw [Finset.mem_insert, mem_current_iff, mem_current_iff, sees_mark_iff]
      constructor
      · rintro ⟨rfl | old, level⟩
        · exact .inl rfl
        · exact .inr ⟨old, level⟩
      · rintro (rfl | ⟨old, level⟩)
        · exact ⟨.inl rfl, full⟩
        · exact ⟨.inr old, level⟩
    have fresh : l.var ∉ current p.trail a := by
      rw [mem_current_iff]
      exact fun both => unseen both.1
    change a.pending + 1 = (current p.trail (a.mark l.var)).card
    rw [grown, Finset.card_insert_of_notMem fresh, h.pending]

/-- Marking a literal of a lower level collects it. -/
theorem Marked.mark_lower (h : Marked p position a) (wf : p.trail.WellFormed)
    (early : Early p position l) (unseen : ¬ a.Sees l.var) (above : p.trail.depth l ≠ 0)
    (low : p.trail.depth l < p.trail.level) :
    Marked p position { a.mark l.var with lower := a.lower.push l } := by
  have marked := open_mark_iff (a := a) (early.eval wf)
  obtain ⟨store, heap, below, occurs⟩ := h.toPlaced.mark wf early above
  refine ⟨⟨store, heap, below, occurs⟩, ?_, ?_, ?_, ?_⟩
  · intro m hm
    rcases Array.mem_push.1 hm with old | rfl
    · exact ⟨(marked m).2 (.inr (h.lower m old).1), (h.lower m old).2⟩
    · exact ⟨(marked m).2 (.inl rfl), low⟩
  · intro m hm low
    rcases (marked m).1 hm with rfl | old
    · exact Array.mem_push.2 (.inr rfl)
    · exact Array.mem_push.2 (.inl (h.collected m old low))
  · rw [Array.toList_push, List.map_append, List.nodup_append]
    refine ⟨h.nodup, by simp, ?_⟩
    intro v hv w hw same
    obtain ⟨m, hm, rfl⟩ := List.mem_map.1 hv
    simp only [List.map_cons, List.map_nil, List.mem_singleton] at hw
    apply unseen
    rw [← hw, ← same]
    exact (h.lower m (by simpa using hm)).1.2
  · have same : current p.trail (a.mark l.var) = current p.trail a := by
      ext v
      rw [mem_current_iff, mem_current_iff, sees_mark_iff]
      constructor
      · rintro ⟨rfl | old, level⟩
        · have : p.trail.depth l = p.trail.level := level
          omega
        · exact ⟨old, level⟩
      · rintro ⟨old, level⟩
        exact ⟨.inr old, level⟩
    change a.pending = (current p.trail (a.mark l.var)).card
    rw [same, h.pending]

/-! ## Meeting clauses -/

theorem Marked.meet (h : Marked p position a) (wf : p.trail.WellFormed)
    (early : Early p position l) : Marked p position (a.meet p.trail l) ∧
      Grows a (a.meet p.trail l) ∧
      (p.trail.depth l = 0 ∨ (a.meet p.trail l).Sees l.var) := by
  have grows : Grows a (a.mark l.var) := fun v hv => (sees_mark_iff a l.var v).2 (.inr hv)
  have seen : (a.mark l.var).Sees l.var := (sees_mark_iff a l.var l.var).2 (.inl rfl)
  rw [meet_eq]
  split
  · next idle => exact ⟨h, fun _ hv => hv, idle.symm⟩
  · next busy =>
    obtain ⟨unseen, above⟩ := not_or.1 busy
    have bound := wf.depth_le_level l
    split
    · exact ⟨h.mark_current wf early unseen above (by omega), grows, .inr seen⟩
    · exact ⟨h.mark_lower wf early unseen above (by omega), grows, .inr seen⟩

theorem Marked.foldl_meet (implied : Option (Lit n)) (ls : List (Lit n)) (a : Analysis n)
    (h : Marked p position a) (wf : p.trail.WellFormed)
    (early : ∀ m ∈ ls, implied ≠ some m → Early p position m) :
    let a' := ls.foldl (fun a l => if implied = some l then a else a.meet p.trail l) a
    Marked p position a' ∧ Grows a a' ∧
      ∀ m ∈ ls, implied ≠ some m → p.trail.depth m = 0 ∨ a'.Sees m.var := by
  induction ls generalizing a with
  | nil => exact ⟨h, fun _ hv => hv, by simp⟩
  | cons l ls ih =>
    have later : ∀ m ∈ ls, implied ≠ some m → Early p position m :=
      fun m hm => early m (List.mem_cons_of_mem _ hm)
    rw [List.foldl_cons]
    by_cases skipped : implied = some l
    · rw [if_pos skipped]
      obtain ⟨marked, grows, met⟩ := ih a h later
      refine ⟨marked, grows, ?_⟩
      intro m hm other
      rcases List.mem_cons.1 hm with rfl | hm
      · exact absurd skipped other
      · exact met m hm other
    · rw [if_neg skipped]
      obtain ⟨marked', grows', met'⟩ := h.meet wf (early l (by simp) skipped)
      obtain ⟨marked, grows, met⟩ := ih _ marked' later
      refine ⟨marked, fun v hv => grows v (grows' v hv), ?_⟩
      intro m hm other
      rcases List.mem_cons.1 hm with rfl | hm
      · exact met'.imp id (grows m.var)
      · exact met m hm other

/-- All literals of the clause but the implied one are in the clause under analysis then, unless
they are false for good. -/
theorem meetClause_spec (h : Marked p position a) (wf : p.trail.WellFormed) {i : Nat}
    {c : Clause n} (hc : p.store.Has i c) (implied : Option (Lit n))
    (before : ∀ m ∈ c.lits, implied ≠ some m → ∃ k < position, p.trail.lits[k]? = some m.neg) :
    Yields (meetClause p.trail implied a i) fun a' => Marked p position a' ∧ Grows a a' ∧
      ∀ m ∈ c.lits, implied ≠ some m → p.trail.depth m = 0 ∨ a'.Sees m.var := by
  obtain ⟨d, hd, -⟩ := h.store.has hc
  refine hd.touch.bind ?_
  intro s touched
  have store : p.store.Matches Clause.Rated s := h.store.trans Clause.Rated.trans touched
  obtain ⟨e, he, rated⟩ := store.has hc
  rw [he.fetch]
  have start : Marked p position { a with store := s } :=
    ⟨⟨store, h.heap, h.below, h.occurs⟩, h.lower, h.collected, h.nodup, h.pending⟩
  have met := Marked.foldl_meet implied e.lits _ start wf ?_
  · refine Yields.pure ⟨met.1, met.2.1, ?_⟩
    rw [← rated.lits]
    exact met.2.2
  · rw [rated.lits]
    exact fun m hm other => ⟨before m hm other, i, c, hc, hm⟩

end Analysis

end IncrementalSat
