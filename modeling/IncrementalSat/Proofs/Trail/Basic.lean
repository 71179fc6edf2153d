import IncrementalSat.Analysis
import IncrementalSat.Proofs.Vectors
import Mathlib.Data.Fintype.Card

/-!
# Well-formed trails

The literals of a well-formed trail are over distinct variables, the cells list exactly these
literals, and the level of a literal is the number of level starts at or before its position.
Values and depths are then read off the positions.
-/
namespace IncrementalSat

namespace Trail

variable {n : Nat}

/-- The level of a position: how many levels start at or before it. -/
def levelAt (t : Trail n) (i : Nat) : Nat := t.starts.toList.countP (· ≤ i)

/-- The cells agree with the literals on the trail and with the level starts. -/
structure WellFormed (t : Trail n) : Prop where
  nodup : (t.lits.toList.map (·.var)).Nodup
  cell : ∀ (i : Nat) (l : Lit n), t.lits[i]? = some l →
    ∃ c : Cell, t.cells.get l.var = some c ∧ c.value = l.positive ∧ c.level = t.levelAt i
  listed : ∀ (v : Fin n) (c : Cell), t.cells.get v = some c →
    ∃ i : Nat, t.lits[i]? = some ⟨v, c.value⟩
  sorted : t.starts.toList.Pairwise (· ≤ ·)
  starts_le : ∀ s ∈ t.starts.toList, s ≤ t.size

/-- The trail without variables. -/
theorem wellFormed_empty : (empty : Trail 0).WellFormed where
  nodup := List.nodup_nil
  cell := fun _ l => l.var.elim0
  listed := fun v => v.elim0
  sorted := .nil
  starts_le := nofun

/-! ## Levels of positions -/

theorem levelAt_le_level (t : Trail n) (i : Nat) : t.levelAt i ≤ t.level := by
  have h : t.starts.toList.countP (· ≤ i) ≤ t.starts.toList.length := List.countP_le_length
  simpa [levelAt, level] using h

theorem levelAt_mono (t : Trail n) {i j : Nat} (h : i ≤ j) : t.levelAt i ≤ t.levelAt j := by
  apply List.countP_mono_left
  intro s _ hs
  simp only [decide_eq_true_eq] at hs ⊢
  omega

/-- A level start raises the level of its position above that of every earlier one. -/
theorem levelAt_lt_of_start (t : Trail n) {i j : Nat} (h : i < j) (start : j ∈ t.starts.toList) :
    t.levelAt i < t.levelAt j := by
  have below : t.levelAt i ≤ t.starts.toList.countP (fun s => decide (s ≤ j) && decide (s ≠ j)) := by
    apply List.countP_mono_left
    intro s _ hs
    simp only [decide_eq_true_eq, Bool.and_eq_true] at hs ⊢
    omega
  have split : t.starts.toList.countP (· ≤ j) =
      t.starts.toList.countP (fun s => decide (s ≤ j) && decide (s ≠ j)) +
        t.starts.toList.countP (fun s => decide (s ≤ j) && !decide (s ≠ j)) := by
    rw [List.countP_eq_countP_filter_add _ (fun s => decide (s ≤ j)) (fun s => decide (s ≠ j))]
    simp only [List.countP_filter]
  have one : 0 < t.starts.toList.countP (fun s => decide (s ≤ j) && !decide (s ≠ j)) :=
    List.countP_pos_iff.2 ⟨j, start, by simp⟩
  unfold levelAt at below ⊢
  omega

/-- At the end of the trail every level has started. -/
theorem WellFormed.levelAt_of_size_le {t : Trail n} (h : t.WellFormed) {i : Nat}
    (hi : t.size ≤ i) : t.levelAt i = t.level := by
  have all : ∀ s ∈ t.starts.toList, decide (s ≤ i) = true := by
    intro s hs
    have := h.starts_le s hs
    simp only [decide_eq_true_eq]
    omega
  rw [levelAt, List.countP_eq_length.2 all, level, Array.length_toList]

/-- The positions of levels up to `k` are those before the start of level `k + 1`. -/
theorem WellFormed.levelAt_le_iff {t : Trail n} (h : t.WellFormed) {k : Nat}
    (hk : k < t.starts.size) (i : Nat) : t.levelAt i ≤ k ↔ i < t.starts[k] := by
  have split : t.levelAt i = (t.starts.toList.take k).countP (· ≤ i) +
      (t.starts.toList.drop k).countP (· ≤ i) := by
    rw [← List.countP_append, List.take_append_drop, levelAt]
  have head : t.starts.toList.drop k = t.starts[k] :: t.starts.toList.drop (k + 1) := by
    rw [List.drop_eq_getElem_cons (by simpa using hk), Array.getElem_toList]
  have apart : ∀ a ∈ t.starts.toList.take k, ∀ b ∈ t.starts.toList.drop k, a ≤ b := by
    have := h.sorted
    rw [← List.take_append_drop k t.starts.toList, List.pairwise_append] at this
    exact this.2.2
  have rest : ∀ b ∈ t.starts.toList.drop k, t.starts[k] ≤ b := by
    have := h.sorted.drop (i := k)
    rw [head, List.pairwise_cons] at this
    intro b hb
    rw [head, List.mem_cons] at hb
    rcases hb with rfl | hb
    · exact Nat.le_refl _
    · exact this.1 b hb
  constructor
  · intro low
    by_contra hge
    have all : ∀ a ∈ t.starts.toList.take k, decide (a ≤ i) = true := by
      intro a ha
      have := apart a ha t.starts[k] (by rw [head]; simp)
      simp only [decide_eq_true_eq]
      omega
    have full : (t.starts.toList.take k).countP (· ≤ i) = k := by
      rw [List.countP_eq_length.2 all, List.length_take, Array.length_toList]
      omega
    have more : 0 < (t.starts.toList.drop k).countP (· ≤ i) :=
      List.countP_pos_iff.2 ⟨t.starts[k], by rw [head]; simp, by simpa using hge⟩
    omega
  · intro lt
    have none : (t.starts.toList.drop k).countP (· ≤ i) = 0 := by
      apply List.countP_eq_zero.2
      intro b hb
      have := rest b hb
      simp only [decide_eq_true_eq]
      omega
    have few : (t.starts.toList.take k).countP (· ≤ i) ≤ k :=
      Nat.le_trans List.countP_le_length (List.length_take_le _ _)
    omega

/-! ## Values and depths -/

@[simp] theorem depth_neg (t : Trail n) (l : Lit n) : t.depth l.neg = t.depth l := rfl

theorem eval_neg (t : Trail n) (l : Lit n) : t.eval l.neg = (t.eval l).map (!·) := by
  simp only [eval, Literal.neg_var, Literal.neg_positive]
  cases t.valueOf l.var with
  | none => rfl
  | some b => cases b <;> cases l.positive <;> rfl

theorem eval_eq_none_iff (t : Trail n) (l : Lit n) : t.eval l = none ↔ t.valueOf l.var = none := by
  simp [eval]

/-- A literal with a value and one without are over different variables. -/
theorem var_ne_of_eval {t : Trail n} {l m : Lit n} {b : Bool} (fresh : t.eval l = none)
    (h : t.eval m = some b) : l.var ≠ m.var := by
  intro same
  rw [eval_eq_none_iff, same, ← eval_eq_none_iff, h] at fresh
  cases fresh

theorem levelOf_of_eval {t : Trail n} {l : Lit n} {b : Bool} (h : t.eval l = some b) :
    t.levelOf l.var = some (t.depth l) := by
  unfold depth levelOf
  unfold eval valueOf at h
  cases hc : t.cells.get l.var with
  | none => simp [hc] at h
  | some c => simp

theorem eval_neg_eq_true_iff (t : Trail n) (l : Lit n) :
    t.eval l.neg = some true ↔ t.eval l = some false := by
  rw [eval_neg]
  cases t.eval l <;> simp

theorem eval_neg_eq_false_iff (t : Trail n) (l : Lit n) :
    t.eval l.neg = some false ↔ t.eval l = some true := by
  rw [eval_neg]
  cases t.eval l <;> simp

/-- Two literals of one variable with the same value are equal. -/
theorem eq_of_eval {t : Trail n} {l m : Lit n} {b : Bool} (hl : t.eval l = some b)
    (hm : t.eval m = some b) (same : l.var = m.var) : m = l := by
  rcases Literal.eq_or_eq_neg_of_var_eq same with eq | eq
  · exact eq.symm
  · rw [eq, eval_neg, hm] at hl
    cases b <;> cases hl

namespace WellFormed

variable {t : Trail n}

theorem eval_of_position (h : t.WellFormed) {i : Nat} {l : Lit n} (hi : t.lits[i]? = some l) :
    t.eval l = some true := by
  obtain ⟨c, hc, value, -⟩ := h.cell i l hi
  simp [eval, valueOf, hc, value]

theorem depth_of_position (h : t.WellFormed) {i : Nat} {l : Lit n} (hi : t.lits[i]? = some l) :
    t.depth l = t.levelAt i := by
  obtain ⟨c, hc, -, level⟩ := h.cell i l hi
  simp [depth, levelOf, hc, level]

/-- The true literals are those on the trail. -/
theorem eval_eq_true_iff (h : t.WellFormed) (l : Lit n) :
    t.eval l = some true ↔ ∃ i : Nat, t.lits[i]? = some l := by
  constructor
  · intro he
    unfold eval valueOf at he
    cases hc : t.cells.get l.var with
    | none => simp [hc] at he
    | some c =>
      obtain ⟨i, hi⟩ := h.listed l.var c hc
      simp only [hc, Option.map_some, Option.some.injEq, beq_iff_eq] at he
      exact ⟨i, by rw [hi, he]⟩
  · rintro ⟨i, hi⟩
    exact h.eval_of_position hi

/-- The false literals are those whose negation is on the trail. -/
theorem eval_eq_false_iff (h : t.WellFormed) (l : Lit n) :
    t.eval l = some false ↔ ∃ i : Nat, t.lits[i]? = some l.neg := by
  rw [← h.eval_eq_true_iff, eval_neg_eq_true_iff]

theorem depth_le_level (h : t.WellFormed) (l : Lit n) : t.depth l ≤ t.level := by
  unfold depth levelOf
  cases hc : t.cells.get l.var with
  | none => simp
  | some c =>
    obtain ⟨i, hi⟩ := h.listed l.var c hc
    have := h.depth_of_position hi
    have := t.levelAt_le_level i
    simp_all [depth, levelOf]

/-- A position is determined by the variable of its literal. -/
theorem position_unique (h : t.WellFormed) {i j : Nat} {l m : Lit n} (hi : t.lits[i]? = some l)
    (hj : t.lits[j]? = some m) (same : l.var = m.var) : i = j := by
  have bound : i < (t.lits.toList.map (·.var)).length := by
    have := (Array.getElem?_eq_some_iff.1 hi).1
    simpa using this
  apply (List.getElem?_inj bound h.nodup).1
  simp [hi, hj, same]

theorem size_le (h : t.WellFormed) : t.size ≤ n := by
  have := List.Nodup.length_le_card h.nodup
  simpa [size] using this

end WellFormed

end Trail

end IncrementalSat
